import NativeBridge.Proofs.Call.Frames
import NativeBridge.Proofs.Call.Upcall

/-! # Invocations

An invocation opens a buffer, fills it and calls. The code behind the address is entered once where
nothing stands against the call, and else not at all: what stands against it is found in a fixed order,
and always before the code can have done anything. However an invocation ends, its frame is closed.

How often code was entered is read off a log that it keeps, of the arguments that it was handed.
-/
namespace NativeBridge

open BufferM

/-- A stack of the same depth, with as much in use. -/
structure Thread.Restored {σ : Type} (t v : Thread σ) : Prop where
  top_eq : v.arena.stack.top = t.arena.stack.top
  depth_eq : v.arena.stack.depth = t.arena.stack.depth

theorem Thread.restored_left {σ : Type} (t : Thread σ) (g : Frame σ) : t.Restored (t.left g) :=
  ⟨rfl, rfl⟩

namespace Call

/-! ## What stands against a call -/

/-- How an entry differs from a single value of a kind. -/
inductive Offends (d : Descriptor) (index : Nat) (t : Tag) (k : CallKind) : Mismatch → Prop
  | array (many : t.count ≠ 1) : Offends d index t k (.array index t.count t.kind)
  | kind (one : t.count = 1) (other : t.kind ≠ k) : Offends d index t k (.kind index t.kind k d)

/-- How entries first differ from what a descriptor asks for: by their number, or else by one behind
entries that do not differ. -/
inductive Differs (d : Descriptor) (tags : List Tag) : Mismatch → Prop
  | count (other : tags.length ≠ d.parameters.length) : Differs d tags (.count tags.length d)
  | entry {front back : List CallKind} {k : CallKind} {t : Tag} {rest : List Tag} {m : Mismatch}
      (parameters_eq : d.parameters = front ++ k :: back)
      (tags_eq : tags = front.map single ++ t :: rest) (length_eq : rest.length = back.length)
      (offends : Offends d front.length t k m) : Differs d tags m

/-- What is reported of a call in place of a result, the earlier ones before the later ones. -/
inductive Refuses {σ : Type} (code : Option (NativeCode σ)) (requested : Option CallKind)
    (d : Descriptor) (tags : List Tag) : Failure → Prop
  | kind {k : CallKind} (asked : requested = some k) (other : d.returns ≠ k) :
      Refuses code requested d tags (.error (.returnKindMismatch k d.returns))
  | null (kind_eq : ∀ k ∈ requested, d.returns = k) (null : code = none) :
      Refuses code requested d tags (.fault .nullFunction)
  | signature {c : NativeCode σ} {m : Mismatch} (kind_eq : ∀ k ∈ requested, d.returns = k)
      (code_eq : code = some c) (differs : Differs d tags m) :
      Refuses code requested d tags (.error (.signatureMismatch m))

section
variable {d : Descriptor} {t : Tag} {ts : List Tag} {k : CallKind} {ks : List CallKind} {m : Mismatch}
  {index : Nat}

/-- The check passes over entries that are the single values asked for. -/
theorem checkEntries_append (front : List CallKind) : checkEntries d index (front.map single ++ ts)
    (front ++ ks) = checkEntries d (index + front.length) ts ks := by
  induction front generalizing index with
  | nil => rfl
  | cons l front ih =>
    have hcount : ¬(single l).count ≠ 1 := not_not.2 rfl
    have hkind : ¬(single l).kind ≠ l := not_not.2 rfl
    rw [List.map_cons, List.cons_append, List.cons_append, checkEntries, if_neg hcount,
      if_neg hkind, ih, List.length_cons, Nat.add_right_comm, Nat.add_assoc]

theorem checkEntries_of_offends (h : Offends d index t k m) :
    checkEntries d index (t :: ts) (k :: ks) = some m := by
  rw [checkEntries]
  cases h with
  | array many => rw [if_pos many]
  | kind one other => rw [if_neg (not_not.2 one), if_pos other]

theorem offends_of_checkEntries (hl : ts.length = ks.length)
    (h : checkEntries d index ts ks = some m) : ∃ front k back t rest, ks = front ++ k :: back ∧
      ts = front.map single ++ t :: rest ∧ rest.length = back.length ∧
      Offends d (index + front.length) t k m := by
  induction ts generalizing ks index with
  | nil => cases h
  | cons t ts ih =>
    obtain ⟨k, ks, rfl⟩ := List.exists_cons_of_length_eq_add_one hl.symm
    have hrest : ts.length = ks.length := Nat.succ.inj hl
    rw [checkEntries] at h
    split_ifs at h with hcount hkind
    · cases h
      exact ⟨[], k, ks, t, ts, rfl, rfl, hrest, .array hcount⟩
    · cases h
      exact ⟨[], k, ks, t, ts, rfl, rfl, hrest, .kind (not_not.1 hcount) hkind⟩
    · obtain ⟨front, l, back, u, rest, rfl, rfl, hlength, hm⟩ := ih hrest h
      have ht : t = single k := by
        obtain ⟨kind, count⟩ := t
        rw [single, ← not_not.1 hkind, ← not_not.1 hcount]
      rw [Nat.add_right_comm, Nat.add_assoc] at hm
      exact ⟨k :: front, l, back, u, rest, rfl, ht ▸ rfl, hlength, hm⟩

theorem mismatch?_eq_some_iff : mismatch? d ts = some m ↔ Differs d ts m := by
  unfold mismatch?
  constructor
  · intro h
    split at h
    · rename_i hl
      cases h
      exact .count hl
    · rename_i hl
      obtain ⟨front, k, back, t, rest, hks, hts, hlength, hm⟩ :=
        offends_of_checkEntries (not_not.1 hl) h
      rw [Nat.zero_add] at hm
      exact .entry hks hts hlength hm
  · intro h
    cases h with
    | count other => rw [if_pos other]
    | @entry front back k t rest _ hks hts hlength hm =>
      have hl : ts.length = d.parameters.length := by
        simp only [hks, hts, List.length_append, List.length_map, List.length_cons, hlength]
      rw [if_neg (not_not.2 hl), hks, hts, checkEntries_append, Nat.zero_add]
      exact checkEntries_of_offends hm

end

variable {σ : Type} {code : Option (NativeCode σ)} {c : NativeCode σ} {requested : Option CallKind}
  {d : Descriptor} {populate : BufferM σ Unit} {t u : Thread σ} {f g : Frame σ}
  {log : σ → List (List Passed)} {word : Nat} {e : Failure}

/-- A call from an open buffer, for a result of a kind if one is asked for. -/
def calling (code : Option (NativeCode σ)) (d : Descriptor) : Option CallKind → BufferM σ Value
  | none => callValue code d
  | some k => call code k d

/-- An invocation, for a result of a kind if one is asked for. -/
def invocation (code : Option (NativeCode σ)) (d : Descriptor) (populate : BufferM σ Unit) :
    Option CallKind → ThreadM σ Value
  | none => invokeValue code d populate
  | some k => invoke code k d populate

theorem invocation_eq : invocation code d populate requested =
    withBuffer (do populate; calling code d requested) := by
  cases requested <;> rfl

/-- The frame in which a buffer was opened and filled. -/
def Populates (populate : BufferM σ Unit) (t : Thread σ) (f : Frame σ) : Prop :=
  ∃ b a, ArgumentBuffer.acquire t.arena = .ok b a ∧ populate ⟨a, b, t.own⟩ = .ok () f

/-- Nothing stands against the call of this code from this frame. -/
structure Admits (code : Option (NativeCode σ)) (requested : Option CallKind) (d : Descriptor)
    (populate : BufferM σ Unit) (t : Thread σ) (c : NativeCode σ) (f : Frame σ) : Prop where
  populates : Populates populate t f
  kind_eq : ∀ k ∈ requested, d.returns = k
  code_eq : code = some c
  tags_eq : f.buffer.tags = d.parameters.map single

/-- Code that is entered with these arguments notes them, returns, and leaves the frames alone. -/
structure Returns (log : σ → List (List Passed)) (c : NativeCode σ) (ps : List Passed)
    (t : Thread σ) (word : Nat) (u : Thread σ) : Prop where
  run_eq : c ps t = .ok word u
  log_eq : log u.own = log t.own ++ [ps]
  frames_eq : u.arena.stack.frames = t.arena.stack.frames

/-- Whatever comes of what fills a buffer, later frames are closed, and the code is not entered. -/
def Tidy (log : σ → List (List Passed)) (populate : BufferM σ Unit) (f : Frame σ) : Prop :=
  ∀ g, Run.Ends populate f g → g.arena.stack.frames = f.arena.stack.frames ∧
    g.buffer.scope = f.buffer.scope ∧ log g.own = log f.own

/-- A value that was decoded as a kind is of that kind. -/
theorem ofKind?_decodeWord (k : CallKind) (word : Nat) :
    (decodeWord k word).ofKind? k = some (decodeWord k word) := if_pos rfl

theorem calling_of_admits (h : Admits code requested d populate t c f)
    (hc : c (passed d f) ⟨f.arena, f.own⟩ = .ok word u) : calling code d requested f =
      .ok (decodeWord d.returns word) { f with arena := u.arena, own := u.own } := by
  have hvalue : callValue code d f =
      .ok (decodeWord d.returns word) { f with arena := u.arena, own := u.own } := by
    rw [h.code_eq, callValue_of_accepted (mismatch?_eq_none_iff.2 h.tags_eq)]
    exact Run.bind_pure_eq_ok_iff.2 ⟨word, onThread_eq_ok_iff.2 ⟨u, hc, rfl⟩, rfl⟩
  cases requested with
  | none => exact hvalue
  | some k =>
    obtain rfl := h.kind_eq k rfl
    rw [calling, call, if_neg (not_not.2 rfl), Run.bind_of_ok hvalue, ofKind?_decodeWord]
    rfl

/-- What stands against a call is reported before any code is entered. -/
theorem calling_of_refuses (h : Refuses code requested d f.buffer.tags e) :
    calling code d requested f = .error e f := by
  have hpass (hkind : ∀ k ∈ requested, d.returns = k) (hvalue : callValue code d f = .error e f) :
      calling code d requested f = .error e f := by
    cases requested with
    | none => exact hvalue
    | some k =>
      rw [calling, call, if_neg (not_not.2 (hkind k rfl))]
      exact Run.bind_eq_error_iff.2 (.inl hvalue)
  cases h with
  | @kind k asked other =>
    rw [asked, calling, call, if_pos other]
    rfl
  | null hkind null =>
    rw [null] at hpass ⊢
    exact hpass hkind rfl
  | @signature c m hkind hcode differs =>
    refine hpass hkind ?_
    have hget : (get : BufferM σ (Frame σ)) f = .ok f f := rfl
    rw [hcode, callValue, Run.bind_of_ok hget, mismatch?_eq_some_iff.2 differs]
    rfl

theorem admits_or_refuses (h : Populates populate t f) :
    (∃ c, Admits code requested d populate t c f) ∨
      ∃ e, Refuses code requested d f.buffer.tags e := by
  by_cases hkind : ∀ k ∈ requested, d.returns = k
  · cases hcode : code with
    | none => exact .inr ⟨_, .null hkind rfl⟩
    | some c =>
      cases hm : mismatch? d f.buffer.tags with
      | none => exact .inl ⟨c, h, hkind, rfl, mismatch?_eq_none_iff.1 hm⟩
      | some m => exact .inr ⟨_, .signature hkind rfl (mismatch?_eq_some_iff.1 hm)⟩
  · push Not at hkind
    obtain ⟨k, hk, hne⟩ := hkind
    exact .inr ⟨_, .kind (Option.mem_def.1 hk) hne⟩

/-- Why an invocation fails: for want of room for its buffer, or else for what fills the buffer, or
else for what stands against the call. -/
inductive Fails (code : Option (NativeCode σ)) (requested : Option CallKind) (d : Descriptor)
    (populate : BufferM σ Unit) (t : Thread σ) : Failure → Prop
  | unopened {cause : Fault} {a : Arena} (run : ArgumentBuffer.acquire t.arena = .error cause a) :
      Fails code requested d populate t (.fault cause)
  | unfilled {b : ArgumentBuffer} {a : Arena} {e : Failure} {f : Frame σ}
      (run : ArgumentBuffer.acquire t.arena = .ok b a)
      (fill : populate ⟨a, b, t.own⟩ = .error e f) : Fails code requested d populate t e
  | refused {e : Failure} {f : Frame σ} (populates : Populates populate t f)
      (refuses : Refuses code requested d f.buffer.tags e) : Fails code requested d populate t e

theorem Tidy.innermost {b : ArgumentBuffer} {a : Arena}
    (hopen : ArgumentBuffer.acquire t.arena = .ok b a) (h : Tidy log populate ⟨a, b, t.own⟩)
    (hf : Run.Ends populate ⟨a, b, t.own⟩ f) : t.Innermost f ∧ log f.own = log t.own := by
  obtain ⟨hframes, hscope, hlog⟩ := h f hf
  obtain ⟨_, _, rfl, rfl⟩ := ArgumentBuffer.acquire_eq_ok_iff.1 hopen
  exact ⟨⟨hframes, congrArg Scope.depth hscope⟩, hlog⟩

section
variable (hpopulate : ∀ b a, ArgumentBuffer.acquire t.arena = .ok b a →
  Tidy log populate ⟨a, b, t.own⟩)
include hpopulate

theorem invocation_of_admits (h : Admits code requested d populate t c f)
    (hc : Returns log c (passed d f) ⟨f.arena, f.own⟩ word u) :
    invocation code d populate requested t =
        .ok (decodeWord d.returns word) (t.left { f with arena := u.arena, own := u.own }) ∧
      log u.own = log t.own ++ [passed d f] := by
  obtain ⟨b, a, hopen, hfill⟩ := h.populates
  obtain ⟨hinner, hlog⟩ := (hpopulate b a hopen).innermost hopen (.inl ⟨(), hfill⟩)
  have hinner' : t.Innermost { f with arena := u.arena, own := u.own } :=
    ⟨hc.frames_eq.trans hinner.frames_eq, hinner.depth_eq⟩
  refine ⟨?_, hc.log_eq.trans (congrArg (· ++ _) hlog)⟩
  rw [invocation_eq]
  exact hinner'.withBuffer_of_ok hopen ((Run.bind_of_ok hfill _).trans (calling_of_admits h hc.run_eq))

/-- An invocation that fails enters no code. -/
theorem invocation_of_fails (h : Fails code requested d populate t e) :
    ∃ v, invocation code d populate requested t = .error e v ∧ log v.own = log t.own ∧
      t.Restored v := by
  rw [invocation_eq]
  cases h with
  | @unopened cause a hopen =>
    refine ⟨t, ?_, rfl, rfl, rfl⟩
    rw [withBuffer, hopen, Thread.eq_of_acquire_eq_error hopen]
  | @unfilled b a e f hopen hfill =>
    obtain ⟨hinner, hlog⟩ := (hpopulate b a hopen).innermost hopen (.inr ⟨e, hfill⟩)
    exact ⟨_, hinner.withBuffer_of_error hopen (Run.bind_eq_error_iff.2 (.inl hfill)), hlog,
      t.restored_left f⟩
  | @refused e f hpopulates hrefuses =>
    obtain ⟨b, a, hopen, hfill⟩ := hpopulates
    obtain ⟨hinner, hlog⟩ := (hpopulate b a hopen).innermost hopen (.inl ⟨(), hfill⟩)
    have hrun := (Run.bind_of_ok hfill fun _ => calling code d requested).trans
      (calling_of_refuses hrefuses)
    exact ⟨_, hinner.withBuffer_of_error hopen hrun, hlog, t.restored_left f⟩

end

theorem admits_or_fails (code : Option (NativeCode σ)) (requested : Option CallKind) (d : Descriptor)
    (populate : BufferM σ Unit) (t : Thread σ) :
    (∃ c f, Admits code requested d populate t c f) ∨ ∃ e, Fails code requested d populate t e := by
  cases hopen : ArgumentBuffer.acquire t.arena with
  | error cause a => exact .inr ⟨_, .unopened hopen⟩
  | ok b a =>
    cases hfill : populate ⟨a, b, t.own⟩ with
    | error e f => exact .inr ⟨e, .unfilled hopen hfill⟩
    | ok x f =>
      have hpopulates : Populates populate t f := ⟨b, a, hopen, hfill⟩
      obtain ⟨c, hadmits⟩ | ⟨e, hrefuses⟩ := admits_or_refuses hpopulates
      · exact .inl ⟨c, f, hadmits⟩
      · exact .inr ⟨e, .refused hpopulates hrefuses⟩

/-- What an invocation comes to. -/
structure Settles (log : σ → List (List Passed)) (code : Option (NativeCode σ))
    (requested : Option CallKind) (d : Descriptor) (populate : BufferM σ Unit) (t : Thread σ) : Prop where
  /-- Code is entered once, and then the result is the word that it returned. -/
  entered : ∀ c f, Admits code requested d populate t c f → ∃ word u v,
    c (passed d f) ⟨f.arena, f.own⟩ = .ok word u ∧
      invocation code d populate requested t = .ok (decodeWord d.returns word) v ∧
      log v.own = log t.own ++ [passed d f]
  /-- Else it fails, and code is not entered. -/
  failed : ∀ e, Fails code requested d populate t e → ∃ v,
    invocation code d populate requested t = .error e v ∧ log v.own = log t.own
  admits_or_fails : (∃ c f, Admits code requested d populate t c f) ∨
    ∃ e, Fails code requested d populate t e
  closed : ∀ v, Run.Ends (invocation code d populate requested) t v → t.Restored v

/-- An invocation enters code just once where its buffer can be filled and nothing stands against the
call, and then has a result; else it fails for the first thing that stands against it. Its frame is
closed in any case. -/
theorem invocation_settles (log : σ → List (List Passed)) (code : Option (NativeCode σ))
    (requested : Option CallKind) (d : Descriptor) (populate : BufferM σ Unit) (t : Thread σ)
    (hpopulate : ∀ b a, ArgumentBuffer.acquire t.arena = .ok b a → Tidy log populate ⟨a, b, t.own⟩)
    (hcode : ∀ c f, Admits code requested d populate t c f →
      ∃ word u, Returns log c (passed d f) ⟨f.arena, f.own⟩ word u) :
    Settles log code requested d populate t where
  entered c f h := by
    obtain ⟨word, u, hc⟩ := hcode c f h
    obtain ⟨hrun, hlog⟩ := invocation_of_admits hpopulate h hc
    exact ⟨word, u, _, hc.run_eq, hrun, hlog⟩
  failed e h := by
    obtain ⟨v, hrun, hlog, _⟩ := invocation_of_fails hpopulate h
    exact ⟨v, hrun, hlog⟩
  admits_or_fails := admits_or_fails code requested d populate t
  closed v hv := by
    obtain ⟨c, f, h⟩ | ⟨e, h⟩ := admits_or_fails code requested d populate t
    · obtain ⟨word, u, hc⟩ := hcode c f h
      rw [Run.Ends, (invocation_of_admits hpopulate h hc).1] at hv
      obtain ⟨_, hv⟩ | ⟨_, hv⟩ := hv <;> cases hv
      exact t.restored_left _
    · obtain ⟨w, hrun, _, hw⟩ := invocation_of_fails hpopulate h
      rw [Run.Ends, hrun] at hv
      obtain ⟨_, hv⟩ | ⟨_, hv⟩ := hv <;> cases hv
      exact hw

/-- Five is passed on and seven comes back; asked for a `long`, the code is not entered. -/
theorem invocation_settles_noted :
    let code : NativeCode (List (List Passed)) := fun ps t => .ok 7 { t with own := t.own ++ [ps] }
    let d : Descriptor := ⟨.int, [.int]⟩
    let populate := put (.ofBits .int 5)
    let t : Thread (List (List Passed)) := ⟨Arena.ofCapacity 256, []⟩
    (∀ b a, ArgumentBuffer.acquire t.arena = .ok b a → Tidy id populate ⟨a, b, t.own⟩) ∧
      (∃ v, invoke (some code) .int d populate t = .ok (.ofBits .int 7) v ∧
        v.own = [[⟨.int, [5, 0, 0, 0]⟩]] ∧ t.Restored v) ∧
      ∃ v, invoke (some code) .long d populate t =
          .error (.error (.returnKindMismatch .long .int)) v ∧ v.own = [] ∧ t.Restored v := by
  intro code d populate t
  have hopen : ArgumentBuffer.acquire t.arena = .ok t.opened.buffer t.opened.arena :=
    Thread.acquire_of_room (by decide) rfl (by decide)
  let f := t.opened.holding [.int] [5, 0, 0, 0]
  have hfill : populate t.opened = .ok () f :=
    (append_eq_ok_iff (by decide)).2 ⟨rfl, rfl, rfl, by decide, rfl⟩
  have hpassed : passed d f = [⟨.int, [5, 0, 0, 0]⟩] := by decide
  have hpopulate : ∀ b a, ArgumentBuffer.acquire t.arena = .ok b a →
      Tidy id populate ⟨a, b, t.own⟩ := by
    intro b a hopen'
    obtain ⟨rfl, rfl⟩ := EStateM.Result.ok.inj (hopen.symm.trans hopen')
    rintro g (⟨_, hg⟩ | ⟨_, hg⟩)
    · obtain ⟨_, rfl⟩ := EStateM.Result.ok.inj (hfill.symm.trans hg)
      exact ⟨rfl, rfl, rfl⟩
    · cases hfill.symm.trans hg
  have hcode (requested : Option CallKind) : ∀ c f, Admits (some code) requested d populate t c f →
      ∃ word u, Returns id c (passed d f) ⟨f.arena, f.own⟩ word u := by
    intro c f h
    obtain rfl := Option.some.inj h.code_eq
    exact ⟨7, _, rfl, rfl, rfl⟩
  have hint := invocation_settles id (some code) (some .int) d populate t hpopulate (hcode _)
  have hlong := invocation_settles id (some code) (some .long) d populate t hpopulate (hcode _)
  refine ⟨hpopulate, ?_, ?_⟩
  · obtain ⟨_, _, v, hword, hrun, hlog⟩ := hint.entered code f
      ⟨⟨_, _, hopen, hfill⟩, by simp [d], rfl, rfl⟩
    obtain ⟨rfl, _⟩ := EStateM.Result.ok.inj hword
    rw [hpassed] at hlog
    exact ⟨v, hrun, hlog, hint.closed v (.inl ⟨_, hrun⟩)⟩
  · obtain ⟨v, hrun, hlog⟩ :=
      hlong.failed _ (.refused ⟨_, _, hopen, hfill⟩ (.kind rfl (by decide)))
    exact ⟨v, hrun, hlog, hlong.closed v (.inr ⟨_, hrun⟩)⟩

end Call

end NativeBridge
