import NativeBridge.Call.Dynamic
import NativeBridge.Proofs.Call.Entries
import NativeBridge.Proofs.Call.Frames

/-! # All values or none

A list of values of any type is put by classifying all of them and then putting what they were found
to be. Asking for one type after the other finds a rule just for the values of those types that have
one. What is put for a list of scalars is a row of bytes, which turns out to be the bytes of its values
one behind the other, as they are put by themselves. So the list is put as its values are one by one;
and as values without a rule are found while nothing has been put, they leave no trace.
-/
namespace NativeBridge

open ArgumentBuffer

/-! ## Rows of bytes -/

section
variable {k : CallKind} {vs : List Value} {row : List UInt8}

/-- Values that fill a row leave nothing of it. -/
theorem overwrite_eq (hk : ∀ v ∈ vs, v.kind = k) (hrow : row.length = k.size * vs.length) :
    overwrite k.size vs row = vs.flatMap Value.bytes := by
  induction vs generalizing row with
  | nil => exact List.eq_nil_of_length_eq_zero hrow
  | cons v vs ih =>
    have hv : v.bytes.length = k.size := by rw [Value.length_bytes, hk v List.mem_cons_self]
    have hrest : (row.drop k.size).length = k.size * vs.length := by
      rw [List.length_drop, hrow, List.length_cons, Nat.mul_succ, Nat.add_sub_cancel]
    rw [overwrite, hv, List.take_left' hv, List.drop_left' hv, List.flatMap_cons,
      ih (fun w hw => hk w (List.mem_cons_of_mem v hw)) hrest]

theorem rowOf_eq (hk : ∀ v ∈ vs, v.kind = k) : rowOf k vs = vs.flatMap Value.bytes :=
  overwrite_eq hk List.length_replicate

end

/-! ## The types that have a rule -/

/-- The entry of a list of values of a plain type. -/
def Entry.ofPlain {p : PlainType} (vs : List p.Carrier) : Entry where
  kind := p.kind
  values := vs.map Subtype.val
  kind_eq := List.forall_mem_map.2 fun v _ => v.2

/-- The values for which there is a rule, and the entries that they become. -/
inductive Offers : Entry → Offered → Prop
  | plain {p : PlainType} (v : p.Carrier) (kind : p.kind ≠ .void) : Offers (.one v.1) ⟨.plain p, v⟩
  | list {p : PlainType} (vs : List p.Carrier) (kind : p.kind ≠ .void) :
      Offers (.ofPlain vs) ⟨.list (.plain p), vs⟩
  | boxed {p : PlainType} (vs : List p.Carrier) (kind : p.kind ≠ .void) :
      Offers (.ofPlain vs) ⟨.boxed (.plain p), vs⟩
  | dynamic (v : Value) (kind : v.kind ≠ .void) : Offers (.one v) ⟨.dynamic, v⟩
  | bytePointer (v : {v : Value // v.kind = .pointer}) : Offers (.one v.1) ⟨.bytePointer, v⟩
  | constBytePointer (v : {v : Value // v.kind = .pointer}) :
      Offers (.one v.1) ⟨.constBytePointer, v⟩

theorem RuntimeType.mem_asked_iff {p : PlainType} : p ∈ asked ↔ p.kind ≠ .void := by
  cases p with
  | ofKind k => cases k <;> decide
  | constPointer => decide

namespace Offered

def Supported (o : Offered) : Prop := ∃ e, Offers e o

/-- The name under which a value that has no rule is reported. -/
def typeName (idText : RuntimeType → String) (o : Offered) : String :=
  match o.type with
  | .dynamic => CallKind.void.name
  | t => t.describe idText

variable {o : Offered} {t : RuntimeType} {p : PlainType} {idText : RuntimeType → String}
  {index : Nat} {c : Classified} {e : Entry} {es : List Entry} {os before after : List Offered}
  {σ : Type}

@[simp] theorem downcast?_self (v : t.Carrier) : downcast? ⟨t, v⟩ t = some v := by
  simp [downcast?]

theorem downcast?_of_ne (h : o.type ≠ t) : o.downcast? t = none := dif_neg h

/-- A plain type, or a list of values of one. -/
inductive IsPlain (p : PlainType) : RuntimeType → Prop
  | plain : IsPlain p (.plain p)
  | list : IsPlain p (.list (.plain p))
  | boxed : IsPlain p (.boxed (.plain p))

theorem asPlain?_of_not (h : ¬IsPlain p o.type) : o.asPlain? p = none := by
  have hp : o.type ≠ .plain p := fun ht => h (ht ▸ .plain)
  have hl : o.type ≠ .list (.plain p) := fun ht => h (ht ▸ .list)
  have hb : o.type ≠ .boxed (.plain p) := fun ht => h (ht ▸ .boxed)
  rw [asPlain?, downcast?_of_ne hp, downcast?_of_ne hl, downcast?_of_ne hb]

theorem IsPlain.unique {q : PlainType} (hp : IsPlain p t) (hq : IsPlain q t) : p = q := by
  cases hp <;> cases hq <;> rfl

/-- Of the types that are asked for at most one answers. -/
theorem classify_of_isPlain (hp : IsPlain p o.type) (kind : p.kind ≠ .void)
    (hc : o.asPlain? p = some c) : o.classify idText index = .ok c := by
  have hfind {ps : List PlainType} (hmem : p ∈ ps) : ps.findSome? o.asPlain? = some c := by
    induction ps with
    | nil => exact absurd hmem List.not_mem_nil
    | cons q ps ih =>
      by_cases hq : q = p
      · rw [hq, List.findSome?_cons, hc]
      · have hnone : o.asPlain? q = none := asPlain?_of_not fun h => hq (h.unique hp)
        rw [List.findSome?_cons, hnone]
        exact ih ((List.mem_cons.1 hmem).resolve_left (Ne.symm hq))
  rw [classify, hfind (RuntimeType.mem_asked_iff.2 kind)]

theorem classify_of_not_isPlain (h : ∀ p, IsPlain p o.type → p.kind = .void) :
    o.classify idText index = o.classifyOther idText index := by
  have hnone : RuntimeType.asked.findSome? o.asPlain? = none := by
    refine List.findSome?_eq_none_iff.2 fun p hp => asPlain?_of_not fun hplain => ?_
    exact RuntimeType.mem_asked_iff.1 hp (h p hplain)
  rw [classify, hnone]

theorem putClassified_scalar {v : Value} (kind : v.kind ≠ .void) :
    (BufferM.putClassified (.scalar v) : BufferM σ Unit) =
      BufferM.append (Entry.one v).tag (Entry.one v).bytes := by
  funext f
  rw [BufferM.putClassified, BufferM.putValue, if_neg kind, Entry.bytes, Entry.one,
    List.flatMap_singleton]
  rfl

theorem putClassified_row (vs : List p.Carrier) :
    (BufferM.putClassified (p.row vs) : BufferM σ Unit) =
      BufferM.append (Entry.ofPlain vs).tag (Entry.ofPlain vs).bytes := by
  have hrow : rowOf p.kind (vs.map Subtype.val) = (Entry.ofPlain vs).bytes :=
    rowOf_eq (Entry.ofPlain vs).kind_eq
  have htag : (⟨p.kind, vs.length⟩ : Tag) = (Entry.ofPlain vs).tag :=
    congrArg (Tag.mk p.kind) (List.length_map _).symm
  rw [PlainType.row, BufferM.putClassified, hrow, htag]

/-- A value that has a rule is found to be what becomes its entry. -/
theorem exists_classify_of_offers (h : Offers e o) (idText : RuntimeType → String) (index : Nat) :
    ∃ c, o.classify idText index = .ok c ∧
      (BufferM.putClassified c : BufferM σ Unit) = BufferM.append e.tag e.bytes := by
  cases h with
  | @plain p v kind =>
    refine ⟨.scalar v.1, classify_of_isPlain .plain kind ?_, putClassified_scalar (v.2.trans_ne kind)⟩
    rw [asPlain?, downcast?_self]
  | @list p vs kind =>
    refine ⟨p.row vs, classify_of_isPlain .list kind ?_, putClassified_row vs⟩
    rw [asPlain?, downcast?_of_ne (by simp), downcast?_self]
  | @boxed p vs kind =>
    refine ⟨p.row vs, classify_of_isPlain .boxed kind ?_, putClassified_row vs⟩
    rw [asPlain?, downcast?_of_ne (by simp), downcast?_of_ne (by simp), downcast?_self]
  | dynamic v kind =>
    refine ⟨.scalar v, ?_, putClassified_scalar kind⟩
    rw [classify_of_not_isPlain (by rintro _ ⟨⟩), classifyOther, downcast?_self]
    exact if_neg kind
  | bytePointer v =>
    have kind : v.1.kind ≠ .void := by simp [v.2]
    refine ⟨.scalar v.1, ?_, putClassified_scalar kind⟩
    rw [classify_of_not_isPlain (by rintro _ ⟨⟩), classifyOther, downcast?_of_ne (by simp),
      downcast?_self]
  | constBytePointer v =>
    have kind : v.1.kind ≠ .void := by simp [v.2]
    refine ⟨.scalar v.1, ?_, putClassified_scalar kind⟩
    rw [classify_of_not_isPlain (by rintro _ ⟨⟩), classifyOther, downcast?_of_ne (by simp),
      downcast?_of_ne (by simp), downcast?_self]

theorem classifyOther_of_ne (hd : o.type ≠ .dynamic) (hb : o.type ≠ .bytePointer)
    (hc : o.type ≠ .constBytePointer) : o.classifyOther idText index =
      .error (.unsupportedValue index (o.type.describe idText)) := by
  rw [classifyOther, downcast?_of_ne hd, downcast?_of_ne hb, downcast?_of_ne hc]

/-- A value that has no rule is reported under the name of its type. -/
theorem classify_of_not_supported (h : ¬o.Supported) (idText : RuntimeType → String) (index : Nat) :
    o.classify idText index = .error (.unsupportedValue index (o.typeName idText)) := by
  obtain ⟨t, v⟩ := o
  have hplain : ∀ p, IsPlain p t → p.kind = .void := by
    intro p hp
    by_contra kind
    cases hp with
    | plain => exact h ⟨_, .plain v kind⟩
    | list => exact h ⟨_, .list v kind⟩
    | boxed => exact h ⟨_, .boxed v kind⟩
  rw [classify_of_not_isPlain hplain]
  by_cases hd : t = .dynamic
  · subst hd
    have hvoid : Value.kind v = .void := by
      by_contra kind
      exact h ⟨_, .dynamic v kind⟩
    rw [classifyOther, downcast?_self]
    exact if_pos hvoid
  · have hb : t ≠ .bytePointer := by
      rintro rfl
      exact h ⟨_, .bytePointer v⟩
    have hc : t ≠ .constBytePointer := by
      rintro rfl
      exact h ⟨_, .constBytePointer v⟩
    rw [classifyOther_of_ne hd hb hc]
    cases t <;> first | rfl | exact absurd rfl hd

theorem supported_of_classify (h : o.classify idText index = .ok c) : o.Supported := by
  by_contra ho
  rw [classify_of_not_supported ho] at h
  cases h

theorem supported_of_classifyAll {cs : List Classified} (h : classifyAll idText index os = .ok cs) :
    ∀ o ∈ os, o.Supported := by
  induction os generalizing index cs with
  | nil => exact fun _ ho => absurd ho List.not_mem_nil
  | cons o os ih =>
    rw [classifyAll] at h
    cases hc : o.classify idText index with
    | error d =>
      rw [hc] at h
      cases h
    | ok c =>
      cases hcs : classifyAll idText (index + 1) os with
      | error d =>
        rw [hc, hcs] at h
        cases h
      | ok cs => exact List.forall_mem_cons.2 ⟨supported_of_classify hc, ih hcs⟩

/-- Classifying ends at the first value that has no rule. -/
theorem classifyAll_of_not_supported (hb : ∀ p ∈ before, p.Supported) (ho : ¬o.Supported) :
    classifyAll idText index (before ++ o :: after) =
      .error (.unsupportedValue (index + before.length) (o.typeName idText)) := by
  induction before generalizing index with
  | nil =>
    rw [List.nil_append, classifyAll, classify_of_not_supported ho]
    rfl
  | cons p before ih =>
    obtain ⟨e, hp⟩ := hb p List.mem_cons_self
    obtain ⟨c, hc, -⟩ := exists_classify_of_offers (σ := Unit) hp idText index
    rw [List.cons_append, classifyAll, hc, List.length_cons]
    change (do let cs ← classifyAll idText (index + 1) _; pure (c :: cs)) = _
    rw [ih fun q hq => hb q (List.mem_cons_of_mem p hq), Nat.add_right_comm, Nat.add_assoc]
    rfl

end Offered

/-! ## What is put -/

namespace BufferM

variable {σ : Type} {f g h : Frame σ} {o : Offered} {os : List Offered} {e : Entry}
  {es : List Entry} {idText : RuntimeType → String} {tags tags' : List Tag}
  {bytes bytes' : List UInt8} {u : Unit} {d : Failure}

/-- Puts one value by itself. -/
def putOffered : Offered → BufferM σ Unit
  | ⟨.plain _, v⟩ => putValue v.1
  | ⟨.list (.plain p), vs⟩ => putArray p.kind (List.map Subtype.val vs)
  | ⟨.boxed (.plain p), vs⟩ => putArray p.kind (List.map Subtype.val vs)
  | ⟨.dynamic, v⟩ => putValue v
  | ⟨.bytePointer, v⟩ => putValue v.1
  | ⟨.constBytePointer, v⟩ => putValue v.1
  | _ => return ()

/-- Puts values one by one. -/
def putEach : List Offered → BufferM σ Unit
  | [] => return ()
  | o :: os => do
    putOffered o
    putEach os

theorem putArray_ofPlain {p : PlainType} (vs : List p.Carrier) :
    (putArray p.kind (vs.map Subtype.val) : BufferM σ Unit) =
      append (Entry.ofPlain vs).tag (Entry.ofPlain vs).bytes :=
  putArray_eq (Entry.ofPlain vs).kind_eq

theorem putOffered_of_offers (h : Offers e o) :
    (putOffered o : BufferM σ Unit) = append e.tag e.bytes := by
  have hscalar {v : Value} (kind : v.kind ≠ .void) :
      (putValue v : BufferM σ Unit) = append (Entry.one v).tag (Entry.one v).bytes :=
    Offered.putClassified_scalar kind
  cases h with
  | plain v kind => exact hscalar (v.2.trans_ne kind)
  | list vs kind => exact putArray_ofPlain vs
  | boxed vs kind => exact putArray_ofPlain vs
  | dynamic v kind => exact hscalar kind
  | bytePointer v => exact hscalar (by simp [v.2])
  | constBytePointer v => exact hscalar (by simp [v.2])

theorem exists_classifyAll_of_offers (h : List.Forall₂ Offers es os) (idText : RuntimeType → String)
    (index : Nat) : ∃ cs, Offered.classifyAll idText index os = .ok cs ∧
      (putAllClassified cs : BufferM σ Unit) = putEach os := by
  induction h generalizing index with
  | nil => exact ⟨[], rfl, rfl⟩
  | cons ho _ ih =>
    obtain ⟨c, hc, hput⟩ := Offered.exists_classify_of_offers (σ := σ) ho idText index
    obtain ⟨cs, hcs, hall⟩ := ih (index + 1)
    refine ⟨c :: cs, ?_, ?_⟩
    · rw [Offered.classifyAll, hc, hcs]
      rfl
    · rw [putAllClassified, putEach, hput, hall, putOffered_of_offers ho]

theorem putAll_eq_putEach (h : List.Forall₂ Offers es os) (idText : RuntimeType → String) :
    (putAll idText os : BufferM σ Unit) = putEach os := by
  obtain ⟨cs, hcs, hput⟩ := exists_classifyAll_of_offers (σ := σ) h idText 0
  rw [putAll, hcs]
  exact hput

theorem supported_of_putAll (hr : putAll idText os f = .ok u g) : ∀ o ∈ os, o.Supported := by
  cases hc : Offered.classifyAll idText 0 os with
  | error c =>
    rw [putAll, hc] at hr
    exact absurd hr Run.throw_ne_ok
  | ok cs => exact Offered.supported_of_classifyAll hc

/-- The frame has got these entries, their bytes where those before them ended, and is otherwise as
it was but for the top of the stack. -/
structure Gains (f : Frame σ) (tags : List Tag) (bytes : List UInt8) (g : Frame σ) : Prop where
  buffer_eq : g.buffer =
    { f.buffer with tags := f.buffer.tags ++ tags, size := f.buffer.size + extent tags }
  memory_eq : g.arena.memory = f.arena.memory.write (f.buffer.base + f.buffer.size) bytes
  frames_eq : g.arena.stack.frames = f.arena.stack.frames
  own_eq : g.own = f.own

theorem Gains.nil (f : Frame σ) : Gains f [] [] f where
  buffer_eq := by rw [List.append_nil, extent, Nat.add_zero]
  memory_eq := (Memory.write_nil ..).symm
  frames_eq := rfl
  own_eq := rfl

theorem Gains.trans (hfg : Gains f tags bytes g) (hgh : Gains g tags' bytes' h)
    (hlen : bytes.length = extent tags) : Gains f (tags ++ tags') (bytes ++ bytes') h where
  buffer_eq := by rw [hgh.buffer_eq, hfg.buffer_eq, List.append_assoc, extent_append, Nat.add_assoc]
  memory_eq := by
    rw [hgh.memory_eq, hfg.memory_eq, hfg.buffer_eq, ← Memory.write_write, hlen, Nat.add_assoc]
  frames_eq := hgh.frames_eq.trans hfg.frames_eq
  own_eq := hgh.own_eq.trans hfg.own_eq

/-- An entry that is added lies where those before it ended, for it would be misplaced anywhere
else. -/
theorem gains_of_append {t : Tag} (hr : append t bytes f = .ok u g) : Gains f [t] bytes g := by
  obtain ⟨_, s, hs, rfl⟩ := append_eq_ok_iff_allocate.1 hr
  exact ⟨rfl, rfl, (Stack.kept_of_allocate hs).frames_eq, rfl⟩

theorem fault_of_append {t : Tag} (hr : append t bytes f = .error d g) : ∃ c, d = .fault c := by
  obtain ⟨_, rfl, _⟩ | ⟨_, ⟨c, _, rfl, _⟩ | ⟨_, _, _, _, rfl, _⟩⟩ :=
    reserve_eq_error_iff.1 (append_eq_error_iff.1 hr)
  · exact ⟨_, rfl⟩
  · exact ⟨c, rfl⟩
  · exact ⟨_, rfl⟩

theorem gains_of_putEach (h : List.Forall₂ Offers es os) (hr : putEach os f = .ok u g) :
    Gains f (es.map Entry.tag) (es.flatMap Entry.bytes) g := by
  induction h generalizing f with
  | nil =>
    obtain ⟨_, rfl⟩ := Run.pure_eq_ok_iff.1 hr
    exact .nil _
  | @cons e o es os ho _ ih =>
    rw [putEach, putOffered_of_offers ho, Run.bind_eq_ok_iff] at hr
    obtain ⟨_, k, hfirst, hrest⟩ := hr
    have hlen : e.bytes.length = extent [e.tag] := e.length_bytes
    exact (gains_of_append hfirst).trans (ih hrest) hlen

theorem fault_of_putEach (h : List.Forall₂ Offers es os) (hr : putEach os f = .error d g) :
    ∃ c, d = .fault c := by
  induction h generalizing f with
  | nil => exact absurd hr Run.pure_ne_error
  | cons ho _ ih =>
    rw [putEach, putOffered_of_offers ho, Run.bind_eq_error_iff] at hr
    obtain hfirst | ⟨_, _, _, hrest⟩ := hr
    · exact fault_of_append hfirst
    · exact ih hrest

/-- What putting a list of values does to a frame. -/
structure AllOrNone (idText : RuntimeType → String) (os : List Offered) (f : Frame σ) : Prop where
  /-- The first value that has no rule is reported, and the frame is as it was. -/
  refused : ∀ before o after, os = before ++ o :: after → (∀ p ∈ before, p.Supported) →
    ¬o.Supported →
    putAll idText os f = .error (.error (.unsupportedValue before.length (o.typeName idText))) f
  /-- Values that have rules are put as they are one by one. -/
  eq_putEach : (∀ o ∈ os, o.Supported) → putAll idText os f = putEach os f
  supported : ∀ g, putAll idText os f = .ok () g → ∀ o ∈ os, o.Supported
  gains : ∀ es, List.Forall₂ Offers es os → ∀ g, putAll idText os f = .ok () g →
    Gains f (es.map Entry.tag) (es.flatMap Entry.bytes) g
  /-- Once values are put, none is found that has no rule. -/
  fault : (∀ o ∈ os, o.Supported) → ∀ d g, putAll idText os f = .error d g → ∃ c, d = .fault c

/-- However values of any types are mixed, the list is put as a whole or not at all. -/
theorem putAll_all_or_none (idText : RuntimeType → String) (os : List Offered) (f : Frame σ) :
    AllOrNone idText os f where
  refused := by
    rintro before o after rfl hb ho
    rw [putAll, Offered.classifyAll_of_not_supported hb ho, Nat.zero_add]
    rfl
  eq_putEach ha := by
    obtain ⟨es, hes⟩ := exists_forall₂_iff.2 ha
    rw [putAll_eq_putEach hes.flip]
  supported _ hr := supported_of_putAll hr
  gains _ hes g hr := by
    rw [putAll_eq_putEach hes] at hr
    exact gains_of_putEach hes hr
  fault ha d g hr := by
    obtain ⟨es, hes⟩ := exists_forall₂_iff.2 ha
    rw [putAll_eq_putEach hes.flip] at hr
    exact fault_of_putEach hes.flip hr

/-- A number, a list of numbers and a pointer are put; with a value behind them that has no rule, none
of them is. Neither have the one value of the type for `void`, lists of such values, and a dynamic value
that is `void`. -/
theorem putAll_all_or_none_mixed :
    let idText : RuntimeType → String := fun _ => "TypeId"
    let supported : List Offered :=
      [⟨.dynamic, .ofBits .int 7⟩,
        ⟨.list (.plain (.ofKind .short)), [⟨.ofBits .short 1, rfl⟩, ⟨.ofBits .short 2, rfl⟩]⟩,
        ⟨.constBytePointer, ⟨.ofBits .pointer 9, rfl⟩⟩]
    let refused : List Offered :=
      [⟨.plain (.ofKind .void), ⟨.void, rfl⟩⟩, ⟨.list (.plain (.ofKind .void)), []⟩,
        ⟨.dynamic, .void⟩, ⟨.wideUint, 0⟩]
    let f : Frame Unit := ⟨⟨⟨1048576, 256, 1048576, [1048576], true⟩, .blank⟩,
      ⟨⟨1⟩, 1048576, [], 0, 0, 0⟩, ()⟩
    acquire (Arena.ofCapacity 256) = .ok f.buffer f.arena ∧
      (∃ g, putAll idText supported f = .ok () g ∧
        Gains f [⟨.int, 1⟩, ⟨.short, 2⟩, ⟨.pointer, 1⟩]
          [7, 0, 0, 0, 1, 0, 2, 0, 9, 0, 0, 0, 0, 0, 0, 0] g) ∧
      refused.map (Offered.typeName idText) = ["()", "TypeId", "void", "128-bit integer"] ∧
      ∀ o ∈ refused, putAll idText (supported ++ [o]) f =
        .error (.error (.unsupportedValue 3 (o.typeName idText))) f := by
  intro idText supported refused f
  have hoffers : List.Forall₂ Offers [.one (.ofBits .int 7),
      .ofPlain (p := .ofKind .short) [⟨.ofBits .short 1, rfl⟩, ⟨.ofBits .short 2, rfl⟩],
      .one (.ofBits .pointer 9)] supported :=
    .cons (.dynamic _ (by decide)) (.cons (.list _ (by decide))
      (.cons (.constBytePointer ⟨.ofBits .pointer 9, rfl⟩) .nil))
  have hrefused : ∀ o ∈ refused, ¬o.Supported := by
    rintro o ho ⟨e, he⟩
    simp only [refused, List.mem_cons, List.not_mem_nil, or_false] at ho
    rcases ho with rfl | rfl | rfl | rfl <;> cases he <;> contradiction
  obtain ⟨_, g, hput, -⟩ := Run.exists_ok_of_seen (putAll idText supported) f (fun _ _ => ())
    (b := ()) (by decide +kernel)
  refine ⟨rfl, ⟨g, hput, ?_⟩, rfl, fun o ho => ?_⟩
  · exact (putAll_all_or_none idText supported f).gains _ hoffers g hput
  · refine (putAll_all_or_none idText (supported ++ [o]) _).refused supported o [] rfl ?_ (hrefused o ho)
    exact exists_forall₂_iff.1 ⟨_, hoffers.flip⟩

end BufferM

end NativeBridge
