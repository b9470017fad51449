import Mathlib.Logic.Relation
import NativeBridge.Proofs.Call.Offering
import NativeBridge.Proofs.Call.Reading

/-! # Buffers in nested frames

Scopes and buffers are opened and closed the last first, and nothing is handed out in the frame of a
buffer but its entries. However they are nested, each open buffer stays filled with what was put
in it: its frame ends where the next one began, so that no later frame reaches into its bytes.
-/
namespace NativeBridge

/-- What is open in a frame of the stack; a buffer with the entries put so far. -/
inductive Opened where
  | scope (guard : Scope)
  | buffer (b : ArgumentBuffer) (es : List Entry)

/-- An arena and what is open in it, the innermost first. -/
structure Nest where
  arena : Arena
  opened : List Opened

namespace Nest

open BufferM

/-- The ways to put entries. -/
inductive Puts : BufferM Unit Unit → List Entry → Prop
  | one (v : Value) : Puts (put v) [.one v]
  | value (v : Value) : Puts (putValue v) [.one v]
  | array (e : Entry) : Puts (putArray e.kind e.values) [e]
  | all {es : List Entry} {os : List Offered} (idText : RuntimeType → String)
      (offers : List.Forall₂ Offers es os) : Puts (putAll idText os) es

def frame (a : Arena) (b : ArgumentBuffer) : Frame Unit := ⟨a, b, ()⟩

/-- What may happen: frames are opened, and the innermost is closed; blocks are handed out outside
of buffers, and memory is written outside of their bytes; entries are put in and read from any open
buffer. -/
inductive Step : Nest → Nest → Prop
  | openScope {a c : Arena} {opened : List Opened} {guard : Scope}
      (run : Arena.onStack Stack.scope a = .ok guard c) :
      Step ⟨a, opened⟩ ⟨c, .scope guard :: opened⟩
  | acquire {a c : Arena} {opened : List Opened} {b : ArgumentBuffer}
      (run : ArgumentBuffer.acquire a = .ok b c) : Step ⟨a, opened⟩ ⟨c, .buffer b [] :: opened⟩
  | closeScope {a c : Arena} {opened : List Opened} {guard : Scope}
      (run : Arena.onStack (Stack.close guard) a = .ok () c) :
      Step ⟨a, .scope guard :: opened⟩ ⟨c, opened⟩
  | release {a c : Arena} {opened : List Opened} {b : ArgumentBuffer} {es : List Entry}
      (run : b.release a = .ok () c) : Step ⟨a, .buffer b es :: opened⟩ ⟨c, opened⟩
  | allocate {a c : Arena} {opened : List Opened} {size alignment start : Nat}
      (outside : ∀ b es, opened.head? ≠ some (.buffer b es))
      (run : Arena.onStack (Stack.allocate size alignment) a = .ok start c) :
      Step ⟨a, opened⟩ ⟨c, opened⟩
  | write {a : Arena} {opened : List Opened} {start : Nat} {bytes : List UInt8}
      (outside : ∀ b es, .buffer b es ∈ opened →
        b.base + b.size ≤ start ∨ start + bytes.length ≤ b.base) :
      Step ⟨a, opened⟩ ⟨{ a with memory := a.memory.write start bytes }, opened⟩
  | put {a : Arena} {inner outer : List Opened} {b : ArgumentBuffer} {es new : List Entry}
      {p : BufferM Unit Unit} {f : Frame Unit} (puts : Puts p new) (run : p (frame a b) = .ok () f) :
      Step ⟨a, inner ++ .buffer b es :: outer⟩
        ⟨f.arena, inner ++ .buffer f.buffer (es ++ new) :: outer⟩
  | read {a : Arena} {inner outer : List Opened} {b : ArgumentBuffer} {es : List Entry}
      (r : Reading) : Step ⟨a, inner ++ .buffer b es :: outer⟩
        ⟨(r.after (frame a b)).arena, inner ++ .buffer (r.after (frame a b)).buffer es :: outer⟩

/-- Open frames above each other: each knows its depth, the buffers are filled, and the frame of a
buffer ends with its entries. -/
inductive Holds (memory : Memory) : List Opened → List Nat → Nat → Prop
  | nothing {frames : List Nat} {top : Nat} : Holds memory [] frames top
  | scope {guard : Scope} {opened : List Opened} {frames : List Nat} {saved top : Nat}
      (depth : guard.depth = frames.length + 1) (le : saved ≤ top)
      (below : Holds memory opened frames saved) :
      Holds memory (.scope guard :: opened) (saved :: frames) top
  | buffer {b : ArgumentBuffer} {es : List Entry} {opened : List Opened} {frames : List Nat}
      {saved top : Nat} (depth : b.scope.depth = frames.length + 1) (le : saved ≤ b.base)
      (filled : Filled memory b es) (ends : b.base + b.size = top)
      (below : Holds memory opened frames saved) :
      Holds memory (.buffer b es :: opened) (saved :: frames) top

variable {memory : Memory} {opened inner outer : List Opened} {frames : List Nat}
  {top start : Nat} {b b' : ArgumentBuffer} {es es' : List Entry} {bytes : List UInt8}

theorem holds_buffer_iff : Holds memory (.buffer b es :: opened) frames top ↔
    ∃ saved below, frames = saved :: below ∧ b.scope.depth = below.length + 1 ∧ saved ≤ b.base ∧
      Filled memory b es ∧ b.base + b.size = top ∧ Holds memory opened below saved := by
  constructor
  · intro h
    cases h with
    | buffer hdepth hle hf hend hbelow => exact ⟨_, _, rfl, hdepth, hle, hf, hend, hbelow⟩
  · rintro ⟨saved, below, rfl, hdepth, hle, hf, hend, hbelow⟩
    exact .buffer hdepth hle hf hend hbelow

theorem Holds.filled (h : Holds memory opened frames top) (hb : .buffer b es ∈ opened) :
    Filled memory b es ∧ b.base + b.size ≤ top := by
  induction h with
  | nothing => exact absurd hb List.not_mem_nil
  | scope _ hle _ ih =>
    rcases List.mem_cons.1 hb with hb | hb
    · cases hb
    · exact ⟨(ih hb).1, Nat.le_trans (ih hb).2 hle⟩
  | buffer _ hle hf hend _ ih =>
    rcases List.mem_cons.1 hb with hb | hb
    · cases hb
      exact ⟨hf, Nat.le_of_eq hend⟩
    · have hbelow := (ih hb).2
      exact ⟨(ih hb).1, by omega⟩

theorem Holds.write (h : Holds memory opened frames top)
    (hd : ∀ b es, .buffer b es ∈ opened →
      b.base + b.size ≤ start ∨ start + bytes.length ≤ b.base) :
    Holds (memory.write start bytes) opened frames top := by
  induction h with
  | nothing => exact .nothing
  | scope hdepth hle _ ih =>
    exact .scope hdepth hle (ih fun b es hb => hd b es (List.mem_cons_of_mem _ hb))
  | buffer hdepth hle hf hend _ ih =>
    exact .buffer hdepth hle (hf.write (hd _ _ List.mem_cons_self)) hend
      (ih fun b es hb => hd b es (List.mem_cons_of_mem _ hb))

theorem Holds.write_above (h : Holds memory opened frames top) (hle : top ≤ start) :
    Holds (memory.write start bytes) opened frames top :=
  h.write fun _ _ hb => .inl (Nat.le_trans (h.filled hb).2 hle)

theorem Holds.raise (h : Holds memory opened frames top) {higher : Nat} (hle : top ≤ higher)
    (outside : ∀ b es, opened.head? ≠ some (.buffer b es)) : Holds memory opened frames higher := by
  cases h with
  | nothing => exact .nothing
  | scope hdepth hsaved hbelow => exact .scope hdepth (Nat.le_trans hsaved hle) hbelow
  | buffer => exact absurd rfl (outside _ _)

/-- The depth of a frame and the frames within it make up the depth of the stack. -/
theorem Holds.depth_eq (h : Holds memory (inner ++ .buffer b es :: outer) frames top) :
    b.scope.depth + inner.length = frames.length := by
  induction inner generalizing frames top with
  | nil =>
    cases h with
    | buffer hdepth _ _ _ _ => exact hdepth
  | cons o inner ih =>
    cases h with
    | scope _ _ hbelow => exact congrArg Nat.succ (ih hbelow)
    | buffer _ _ _ _ hbelow => exact congrArg Nat.succ (ih hbelow)

/-- A buffer may be read: the same frame and bytes, the cursor elsewhere. -/
theorem Holds.replace (h : Holds memory (inner ++ .buffer b es :: outer) frames top)
    (hscope : b'.scope = b.scope) (hbase : b'.base = b.base) (hsize : b'.size = b.size)
    (hf : Filled memory b' es) : Holds memory (inner ++ .buffer b' es :: outer) frames top := by
  induction inner generalizing frames top with
  | nil =>
    cases h with
    | buffer hdepth hle _ hend hbelow =>
      rw [← hscope] at hdepth
      rw [← hbase] at hle
      rw [← hbase, ← hsize] at hend
      exact .buffer hdepth hle hf hend hbelow
  | cons o inner ih =>
    cases h with
    | scope hdepth hle hbelow => exact .scope hdepth hle (ih hbelow)
    | buffer hdepth hle hf' hend hbelow => exact .buffer hdepth hle hf' hend (ih hbelow)

/-- What every step preserves. -/
structure Sound (n : Nest) : Prop where
  limit_lt : n.arena.stack.limit + 1 < addressLimit
  holds : Holds n.arena.memory n.opened n.arena.stack.frames n.arena.stack.top

variable {a : Arena} {e : Entry} {f : Frame Unit}

/-- A buffer whose frame is the innermost one is the innermost thing open. -/
theorem Sound.inner_eq_nil (h : Sound ⟨a, inner ++ .buffer b es :: outer⟩)
    (hd : a.stack.depth = b.scope.depth) : inner = [] := by
  have hdepth := h.holds.depth_eq
  have hframes : a.stack.frames.length = b.scope.depth := hd
  exact List.eq_nil_of_length_eq_zero (by dsimp only at hdepth; omega)

theorem Sound.end_eq (h : Sound ⟨a, inner ++ .buffer b es :: outer⟩)
    (hd : a.stack.depth = b.scope.depth) : b.base + b.size = a.stack.top := by
  have hh := h.holds
  rw [h.inner_eq_nil hd, List.nil_append, holds_buffer_iff] at hh
  obtain ⟨_, _, _, _, _, _, hend, _⟩ := hh
  exact hend

/-- An entry put into a buffer lies above all that is open. -/
theorem Sound.append (h : Sound ⟨a, inner ++ .buffer b es :: outer⟩)
    (hr : append e.tag e.bytes (frame a b) = .ok () f) :
    Sound ⟨f.arena, inner ++ .buffer f.buffer (es ++ [e]) :: outer⟩ := by
  obtain ⟨hd, _, hend, _, rfl⟩ := (append_eq_ok_iff h.limit_lt).1 hr
  have hh := h.holds
  rw [h.inner_eq_nil hd, List.nil_append, holds_buffer_iff] at hh
  rw [h.inner_eq_nil hd, List.nil_append]
  obtain ⟨saved, below, hframes, hdepth, hle, hf, hends, hbelow⟩ := hh
  refine ⟨h.limit_lt, holds_buffer_iff.2 ⟨saved, below, hframes, hdepth, hle, ?_, ?_, ?_⟩⟩
  · have hnew := hf.append e
    rw [hends] at hnew
    exact hnew
  · exact (Nat.add_assoc _ _ _).symm.trans (congrArg (· + e.tag.size) hends)
  · have habove : saved ≤ a.stack.top := Nat.le_trans hle (hends ▸ Nat.le_add_right _ _)
    exact hbelow.write_above habove

theorem Sound.putValue {v : Value} (h : Sound ⟨a, inner ++ .buffer b es :: outer⟩)
    (hr : BufferM.putValue v (frame a b) = .ok () f) :
    Sound ⟨f.arena, inner ++ .buffer f.buffer (es ++ [.one v]) :: outer⟩ := by
  apply h.append (e := .one v)
  rw [Entry.bytes, Entry.one, List.flatMap_singleton]
  exact (putValue_eq_ok_iff.1 hr).2

theorem Sound.putEach {es' : List Entry} {os : List Offered} (ho : List.Forall₂ Offers es' os)
    (h : Sound ⟨a, inner ++ .buffer b es :: outer⟩)
    (hr : BufferM.putEach os (frame a b) = .ok () f) :
    Sound ⟨f.arena, inner ++ .buffer f.buffer (es ++ es') :: outer⟩ := by
  induction ho generalizing a b es with
  | nil =>
    obtain ⟨_, rfl⟩ := Run.pure_eq_ok_iff.1 hr
    rwa [List.append_nil]
  | @cons e o es' os he _ ih =>
    rw [BufferM.putEach, Run.bind_eq_ok_iff] at hr
    obtain ⟨_, g, hg, hr⟩ := hr
    rw [putOffered_of_offers he] at hg
    rw [List.append_cons es]
    exact ih (h.append hg) hr

theorem Sound.put {p : BufferM Unit Unit} {new : List Entry} (hp : Puts p new)
    (h : Sound ⟨a, inner ++ .buffer b es :: outer⟩) (hr : p (frame a b) = .ok () f) :
    Sound ⟨f.arena, inner ++ .buffer f.buffer (es ++ new) :: outer⟩ := by
  cases hp with
  | one v =>
    apply h.append (e := .one v)
    rwa [Entry.bytes, Entry.one, List.flatMap_singleton]
  | value v => exact h.putValue hr
  | array e =>
    rw [putArray_eq e.kind_eq] at hr
    exact h.append hr
  | all idText ho =>
    rw [putAll_eq_putEach ho] at hr
    exact h.putEach ho hr

theorem Sound.read (h : Sound ⟨a, inner ++ .buffer b es :: outer⟩) (r : Reading) :
    Sound ⟨(r.after (frame a b)).arena, inner ++ .buffer (r.after (frame a b)).buffer es :: outer⟩ := by
  have hmem : Opened.buffer b es ∈ inner ++ .buffer b es :: outer :=
    List.mem_append_right _ List.mem_cons_self
  obtain ⟨⟨i, o, hg⟩, hf⟩ := Reading.filled_after (f := frame a b) (h.holds.filled hmem).1 r
  rw [hg] at hf ⊢
  exact ⟨h.limit_lt, h.holds.replace rfl rfl rfl hf⟩

theorem Sound.close {guard : Scope} {c : Arena} {o : Opened} (h : Sound ⟨a, o :: opened⟩)
    (hr : Arena.onStack (Stack.close guard) a = .ok () c) : Sound ⟨c, opened⟩ := by
  obtain ⟨t, ht, rfl⟩ := Arena.onStack_eq_ok_iff.1 hr
  obtain ⟨_, ht⟩ := Stack.close_eq_ok_iff.1 ht
  obtain ⟨saved, frames, hframes, rfl⟩ := Stack.pop_eq_ok_iff.1 ht
  have hh := h.holds
  rw [hframes] at hh
  refine ⟨h.limit_lt, ?_⟩
  cases hh with
  | scope _ _ hbelow => exact hbelow
  | buffer _ _ _ _ hbelow => exact hbelow

theorem Sound.step {n n' : Nest} (h : Sound n) (hs : Step n n') : Sound n' := by
  cases hs with
  | openScope hr =>
    obtain ⟨t, ht, rfl⟩ := Arena.onStack_eq_ok_iff.1 hr
    obtain ⟨rfl, rfl⟩ := Stack.scope_eq_ok_iff.1 ht
    exact ⟨h.limit_lt, .scope rfl le_rfl h.holds⟩
  | acquire hr =>
    obtain ⟨rfl, rfl⟩ := ArgumentBuffer.eq_of_acquire_eq_ok h.limit_lt hr
    refine ⟨h.limit_lt, .buffer rfl (le_alignUp Arena.isPowerOfTwo_extentAlignment _) ?_ rfl h.holds⟩
    exact .empty _ _ (dvd_alignUp Arena.isPowerOfTwo_extentAlignment _)
  | closeScope hr => exact h.close hr
  | release hr => exact h.close hr
  | allocate outside hr =>
    obtain ⟨t, ht, rfl⟩ := Arena.onStack_eq_ok_iff.1 hr
    obtain ⟨_, hp, hstart, _, rfl⟩ := (Stack.allocate_eq_ok_iff h.limit_lt).1 ht
    have hle := le_alignUp hp
    refine ⟨h.limit_lt, h.holds.raise ?_ outside⟩
    rw [hstart]
    exact Nat.le_add_right_of_le (hle _)
  | write outside => exact ⟨h.limit_lt, h.holds.write outside⟩
  | put hp hr => exact h.put hp hr
  | read r => exact h.read r

theorem Sound.steps {n n' : Nest} (h : Sound n) (hs : Relation.ReflTransGen Step n n') :
    Sound n' := by
  induction hs with
  | refl => exact h
  | tail _ hs ih => exact ih.step hs

/-- The frame of the buffer is the innermost one, and so many bytes are left of a live extent. -/
def HasRoom (a : Arena) (b : ArgumentBuffer) (size : Nat) : Prop :=
  a.stack.isInnermost b.scope = true ∧ a.stack.live = true ∧ a.stack.top + size ≤ a.stack.limit

/-- What a buffer that was filled with these entries does and gives back. -/
structure Faithful (a : Arena) (b : ArgumentBuffer) (es : List Entry) : Prop where
  aligned : 16 ∣ b.base
  tags_eq : b.tags = es.map Entry.tag
  size_eq : b.size = Entry.total es
  address_eq : ∀ i ≤ es.length, b.address i = .ok (b.base + Entry.total (es.take i))
  addresses_eq : b.addresses =
    (List.range es.length).map fun i => b.base + Entry.total (es.take i)
  end_eq : a.stack.isInnermost b.scope = true → b.base + b.size = a.stack.top
  value?_eq : ∀ i, b.value? a.memory i = es[i]?.bind Entry.value?
  /-- From wherever the cursor stands, any series of reads and rewinds. -/
  runAll_eq : ∀ rs vss c, Reading.GivesAll es b.readIndex rs vss c →
    ∃ g, Reading.runAll rs (frame a b) = .ok vss g ∧ Reading.Alike (frame a b) g ∧
      g.buffer.readIndex = c
  put_succeeds_iff : ∀ v, (∃ f, put v (frame a b) = .ok () f) ↔ HasRoom a b v.kind.size
  putArray_succeeds_iff : ∀ e : Entry,
    (∃ f, putArray e.kind e.values (frame a b) = .ok () f) ↔ HasRoom a b e.size
  eq_of_put : ∀ v c f, put v (frame a b) = .error c f → f = frame a b
  eq_of_putValue : ∀ v c f, putValue v (frame a b) = .error c f → f = frame a b
  eq_of_putArray : ∀ (e : Entry) c f,
    putArray e.kind e.values (frame a b) = .error c f → f = frame a b

theorem append_succeeds_iff {tag : Tag} {bytes : List UInt8}
    (hs : a.stack.limit + 1 < addressLimit)
    (hend : a.stack.depth = b.scope.depth → b.base + b.size = a.stack.top) :
    (∃ f, BufferM.append tag bytes (frame a b) = .ok () f) ↔ HasRoom a b tag.size := by
  rw [HasRoom, Stack.isInnermost, beq_iff_eq]
  constructor
  · rintro ⟨f, hf⟩
    obtain ⟨hd, hlive, _, hroom, _⟩ := (append_eq_ok_iff hs).1 hf
    exact ⟨hd, hlive, hroom⟩
  · rintro ⟨hd, hlive, hroom⟩
    exact ⟨_, (append_eq_ok_iff hs).2 ⟨hd, hlive, hend hd, hroom, rfl⟩⟩

theorem Sound.faithful {n : Nest} (h : Sound n) (hb : .buffer b es ∈ n.opened) :
    Faithful n.arena b es := by
  obtain ⟨a, opened⟩ := n
  obtain ⟨inner, outer, rfl⟩ := List.append_of_mem hb
  have hs : a.stack.limit + 1 < addressLimit := h.limit_lt
  have hf : Filled a.memory b es := (h.holds.filled hb).1
  have hend : a.stack.depth = b.scope.depth → b.base + b.size = a.stack.top := h.end_eq
  have hfault {tag : Tag} {bytes : List UInt8} {c : Failure} {f : Frame Unit}
      (hr : BufferM.append tag bytes (frame a b) = .error c f) : f = frame a b :=
    eq_of_append_eq_error hs hend hr
  have hroom (v : Value) : (⟨v.kind, 1⟩ : Tag).size = v.kind.size := Nat.mul_one _
  exact {
    aligned := hf.aligned
    tags_eq := hf.tags_eq
    size_eq := hf.size_eq
    address_eq := fun i => hf.address_eq
    addresses_eq := hf.addresses_eq
    end_eq := fun hi => hend (beq_iff_eq.1 hi)
    value?_eq := hf.value?_eq
    runAll_eq := fun _ _ _ hg => Reading.runAll_of_givesAll (f := frame a b) hf hg
    put_succeeds_iff := fun v => hroom v ▸ append_succeeds_iff hs hend
    putArray_succeeds_iff := fun e => by
      rw [putArray_eq e.kind_eq]
      exact append_succeeds_iff hs hend
    eq_of_put := fun _ _ _ hr => hfault hr
    eq_of_putValue := fun _ _ _ hr => eq_of_putValue_eq_error hfault hr
    eq_of_putArray := fun e _ _ hr => by
      rw [putArray_eq e.kind_eq] at hr
      exact hfault hr }

/-- However frames are nested in an extent that ends before the greatest address, each open buffer
gives back what was put. -/
theorem faithful_of_steps {a : Arena} (hs : a.stack.limit + 1 < addressLimit) {n : Nest}
    (hn : Relation.ReflTransGen Step ⟨a, []⟩ n) (hb : .buffer b es ∈ n.opened) :
    Faithful n.arena b es :=
  Sound.faithful (Sound.steps ⟨hs, .nothing⟩ hn) hb

/-- An entry, a scope with a block in it, and once that is closed an array; then both are read. -/
theorem faithful_of_steps_nested :
    let seven := Value.ofBits .int 7
    let shorts : Entry := ⟨.short, [.ofBits .short 1, .ofBits .short 2], by decide⟩
    (Arena.ofCapacity 256).stack.limit + 1 < addressLimit ∧
    ∃ n b, Relation.ReflTransGen Step ⟨Arena.ofCapacity 256, []⟩ n ∧
      .buffer b [.one seven, shorts] ∈ n.opened ∧ b.base + b.size = n.arena.stack.top ∧
      ∃ g, Reading.runAll [.next .int, .rewind, .next .int, .array .short] (frame n.arena b) =
        .ok [[seven], [], [seven], shorts.values] g := by
  intro seven shorts
  have hs : (Arena.ofCapacity 256).stack.limit + 1 < addressLimit := by decide
  let arena (top : Nat) (frames : List Nat) (memory : Memory) : Arena :=
    ⟨⟨1048576, 256, top, frames, true⟩, memory⟩
  let buffer (tags : List Tag) (size : Nat) : ArgumentBuffer := ⟨⟨1⟩, 1048576, tags, size, 0, 0⟩
  let alone : Opened := .buffer (buffer [⟨.int, 1⟩] 4) [.one seven]
  let first := Memory.blank.write 1048576 seven.bytes
  have hempty : Relation.ReflTransGen Step ⟨Arena.ofCapacity 256, []⟩
      ⟨arena 1048576 [1048576] .blank, [.buffer (buffer [] 0) []]⟩ := .single (.acquire rfl)
  have halone : Relation.ReflTransGen Step ⟨Arena.ofCapacity 256, []⟩
      ⟨arena 1048580 [1048576] first, [alone]⟩ :=
    hempty.tail (@Step.put _ [] _ _ [] _ _ ⟨_, _, ()⟩ (.one seven)
      ((append_eq_ok_iff hs).2 ⟨rfl, rfl, rfl, by decide, rfl⟩))
  have hscope : Relation.ReflTransGen Step ⟨Arena.ofCapacity 256, []⟩
      ⟨arena 1048580 [1048580, 1048576] first, [.scope ⟨2⟩, alone]⟩ :=
    halone.tail (.openScope rfl)
  have hblock : Stack.allocate 5 8 ⟨1048576, 256, 1048580, [1048580, 1048576], true⟩ =
    .ok 1048584 ⟨1048576, 256, 1048589, [1048580, 1048576], true⟩ := rfl
  have hwithin : Relation.ReflTransGen Step ⟨Arena.ofCapacity 256, []⟩
      ⟨arena 1048589 [1048580, 1048576] first, [.scope ⟨2⟩, alone]⟩ :=
    hscope.tail (.allocate (fun _ _ => by simp) (Arena.onStack_eq_ok_iff.2 ⟨_, hblock, rfl⟩))
  have hclosed : Relation.ReflTransGen Step ⟨Arena.ofCapacity 256, []⟩
      ⟨arena 1048580 [1048576] first, [alone]⟩ := hwithin.tail (.closeScope rfl)
  have hput : putArray shorts.kind shorts.values (frame (arena 1048580 [1048576] first)
      (buffer [⟨.int, 1⟩] 4)) = .ok () ⟨arena 1048584 [1048576] (first.write 1048580 shorts.bytes),
        buffer [⟨.int, 1⟩, ⟨.short, 2⟩] 8, ()⟩ := by
    rw [putArray_eq shorts.kind_eq]
    exact (append_eq_ok_iff hs).2 ⟨rfl, rfl, rfl, by decide, rfl⟩
  have hn : Relation.ReflTransGen Step ⟨Arena.ofCapacity 256, []⟩
      ⟨arena 1048584 [1048576] (first.write 1048580 shorts.bytes),
        [.buffer (buffer [⟨.int, 1⟩, ⟨.short, 2⟩] 8) [.one seven, shorts]]⟩ :=
    hclosed.tail (@Step.put _ [] _ _ [.one seven] _ _ ⟨_, _, ()⟩ (.array shorts) hput)
  have hf := faithful_of_steps hs hn List.mem_cons_self
  have hnext {c : Nat} (hc : c = 0) :
      Reading.Gives [.one seven, shorts] c (.next .int) [seven] (c + 1) :=
    @Reading.Gives.next _ _ (.one seven) seven (hc ▸ rfl) rfl
  have harray : Reading.Gives [.one seven, shorts] 1 (.array .short) shorts.values 2 :=
    @Reading.Gives.array _ _ shorts rfl
  have hg := hf.runAll_eq _ _ _
    (.cons (hnext rfl) (.cons .rewind (.cons (hnext rfl) (.cons harray .nil))))
  obtain ⟨g, hg, _⟩ := hg
  exact ⟨hs, _, _, hn, List.mem_cons_self, hf.end_eq rfl, g, hg⟩

end Nest

end NativeBridge
