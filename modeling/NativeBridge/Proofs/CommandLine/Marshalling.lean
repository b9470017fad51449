import NativeBridge.CommandLine.Report
import NativeBridge.Proofs.Call.Invocation
import NativeBridge.Proofs.Value.Literals

/-! # Calls from the command line

An argument writes a value: the name of its kind stands before the first colon, and a literal of that
kind behind it. The values that are written are put one by one into the buffer of the call, and the
descriptor is made of their kinds. So where the stack has room for them nothing stands against the call,
and the code finds the bytes of the values in the order in which they were written. What it makes of them
is what is reported.
-/
namespace NativeBridge

/-- A value as code finds it among its arguments. -/
def Value.handed (v : Value) : Passed := ⟨v.kind, v.bytes⟩

namespace Call

variable {vs : List Value}

theorem map_kind_handed (vs : List Value) :
    (vs.map Value.handed).map Passed.kind = vs.map Value.kind := by
  rw [List.map_map]
  rfl

theorem length_bytes_of_mem_handed {p : Passed} (h : p ∈ vs.map Value.handed) :
    p.bytes.length = p.kind.size := by
  obtain ⟨v, _, rfl⟩ := List.mem_map.1 h
  exact v.length_bytes

theorem length_bytesOf_handed (vs : List Value) :
    (bytesOf (vs.map Value.handed)).length = sizeOfKinds (vs.map Value.kind) := by
  induction vs with
  | nil => rfl
  | cons v vs ih =>
    rw [List.map_cons, bytesOf, List.flatMap_cons, List.length_append, List.map_cons, sizeOfKinds,
      ← ih, ← v.length_bytes]
    rfl

/-- Values that lie one behind the other are read one by one. -/
theorem handed_of_has {m : Memory} {start : Nat} (h : m.Has start (bytesOf (vs.map Value.handed))) :
    (((vs.map Value.kind).zip
      (ArgumentBuffer.addressesFrom start ((vs.map Value.kind).map single))).map fun (k, address) =>
        (⟨k, m.read address k.size⟩ : Passed)) = vs.map Value.handed := by
  induction vs generalizing start with
  | nil => rfl
  | cons v vs ih =>
    rw [List.map_cons, bytesOf, List.flatMap_cons, Memory.has_append_iff] at h
    obtain ⟨hv, hvs⟩ := h
    have hsize : (single v.kind).size = v.handed.bytes.length :=
      (Nat.mul_one _).trans v.length_bytes.symm
    have hread : (⟨v.kind, m.read start v.kind.size⟩ : Passed) = v.handed := by
      rw [Value.handed, ← v.length_bytes]
      exact congrArg _ hv
    rw [← hsize] at hvs
    rw [List.map_cons, List.map_cons, ArgumentBuffer.addressesFrom, List.zip_cons_cons,
      List.map_cons, ih hvs, List.map_cons, ← hread]

variable {σ α : Type} {code : NativeCode σ} {d : Descriptor} {f g : Frame σ} {t u : Thread σ}

/-- An action in a buffer of its own reports no error but its own. -/
theorem exists_of_withBuffer_eq_error {p : BufferM σ α} {e : CallError}
    (h : withBuffer p t = .error (.error e) u) :
    ∃ b a g, ArgumentBuffer.acquire t.arena = .ok b a ∧ p ⟨a, b, t.own⟩ = .error (.error e) g := by
  unfold withBuffer at h
  split at h
  · cases h
  · rename_i b a hopen
    split at h
    · split at h <;> cases h
    · rename_i g hp
      split at h <;> cases h
      exact ⟨b, a, g, hopen, hp⟩
    · split at h <;> cases h

/-- A fault in a buffer of its own goes through, whether the buffer can be closed or not. -/
theorem exists_withBuffer_of_fault {p : BufferM σ α} {b : ArgumentBuffer} {a : Arena} {c : Fault}
    (hopen : ArgumentBuffer.acquire t.arena = .ok b a) (hp : p ⟨a, b, t.own⟩ = .error (.fault c) g) :
    ∃ u, withBuffer p t = .error (.fault c) u := by
  rw [withBuffer, hopen]
  dsimp only
  rw [hp]
  dsimp only
  split
  · exact ⟨_, rfl⟩
  · exact ⟨_, rfl⟩

/-- A call that is accepted fails where its code does. -/
theorem callValue_eq_error_iff (h : mismatch? d f.buffer.tags = none) {e : Failure} :
    callValue (some code) d f = .error e g ↔ ∃ u,
      code (passed d f) ⟨f.arena, f.own⟩ = .error e u ∧
        g = { f with arena := u.arena, own := u.own } := by
  rw [callValue_of_accepted h, Run.bind_pure_eq_error_iff, onThread]
  cases code (passed d f) ⟨f.arena, f.own⟩ with
  | ok word u => simp
  | error e u => simp [eq_comm]

end Call

namespace Report

variable {α β : Type} {s name : String} {ss : List String} {v : Value} {vs : List Value} {k : CallKind}

/-! ## What is written -/

theorem bind_eq_ok_iff {p : Outcome α} {f : α → Outcome β} {b : β} :
    (p >>= f) = .ok b ↔ ∃ a, p = .ok a ∧ f a = .ok b := by
  cases p with
  | error e => simp [bind, Except.bind]
  | ok a => simp [bind, Except.bind]

theorem ok_bind (a : α) (f : α → Outcome β) : (Except.ok a >>= f) = f a := rfl

theorem fail_ne_ok {message : String} {a : α} : (fail message : Outcome α) ≠ .ok a := nofun

theorem kind_eq_ok_iff :
    kind name = .ok k ↔ CallKind.ofName? (String.ofList (Text.trim name.toList)) = some k := by
  unfold kind
  split
  · rename_i l hl
    rw [hl, Option.some_inj]
    exact Except.ok.injEq l k ▸ Iff.rfl
  · rename_i hnone
    rw [hnone]
    exact iff_of_false fail_ne_ok nofun

/-- An argument that writes a value: the name of its kind, with blanks around it or without, and a
literal of that kind behind the first colon. -/
inductive Spells (s : String) (v : Value) : Prop
  | intro (name literal : List Char) (toList_eq : s.toList = name ++ ':' :: literal)
      (first : ':' ∉ name) (named : CallKind.ofName? (String.ofList (Text.trim name)) = some v.kind)
      (ne_void : v.kind ≠ .void) (read : Value.parse? v.kind (String.ofList literal) = some v)

theorem Spells.kind_ne_void (h : Spells s v) : v.kind ≠ .void := by
  cases h
  assumption

/-- Behind the colon stands a literal of the kind whose name stands before it. -/
theorem argument_of_colon {name literal : List Char} (hs : s.toList = name ++ ':' :: literal)
    (hname : ':' ∉ name) : argument s = .ok v ↔
      CallKind.ofName? (String.ofList (Text.trim name)) = some v.kind ∧ v.kind ≠ .void ∧
        Value.parse? v.kind (String.ofList literal) = some v := by
  unfold argument
  rw [hs, dropWhile_append_mark hname, takeWhile_append_mark hname]
  dsimp only
  rw [bind_eq_ok_iff]
  simp only [kind_eq_ok_iff, String.toList_ofList]
  constructor
  · rintro ⟨k, hk, h⟩
    split_ifs at h with hvoid
    · exact absurd h nofun
    · split at h
      · rename_i w hw
        obtain rfl : w = v := Except.ok.inj h
        obtain rfl := Value.kind_of_parse? hw
        exact ⟨hk, hvoid, hw⟩
      · exact absurd h fail_ne_ok
  · rintro ⟨hk, hvoid, hread⟩
    refine ⟨v.kind, hk, ?_⟩
    rw [if_neg hvoid, hread]
    rfl

theorem argument_eq_ok_iff : argument s = .ok v ↔ Spells s v := by
  constructor
  · intro h
    cases hd : s.toList.dropWhile (· ≠ ':') with
    | nil =>
      rw [argument, hd] at h
      exact absurd h fail_ne_ok
    | cons c literal =>
      have hne : s.toList.dropWhile (· ≠ ':') ≠ [] := hd ▸ List.cons_ne_nil _ _
      have hc : c = ':' := by
        have hhead := List.head_dropWhile_not (· ≠ ':') hne
        simp only [hd, List.head_cons] at hhead
        simpa using hhead
      subst hc
      have hs : s.toList = s.toList.takeWhile (· ≠ ':') ++ ':' :: literal := by
        rw [← hd, List.takeWhile_append_dropWhile]
      have hname : ':' ∉ s.toList.takeWhile (· ≠ ':') := by
        intro hmem
        simpa using List.mem_takeWhile_imp hmem
      obtain ⟨hk, hvoid, hread⟩ := (argument_of_colon hs hname).1 h
      exact ⟨_, literal, hs, hname, hk, hvoid, hread⟩
  · rintro ⟨name, literal, hs, hname, hk, hvoid, hread⟩
    exact (argument_of_colon hs hname).2 ⟨hk, hvoid, hread⟩

theorem arguments_eq_ok_iff : arguments ss = .ok vs ↔ List.Forall₂ Spells ss vs := by
  induction ss generalizing vs with
  | nil => simp [arguments, eq_comm, pure, Except.pure]
  | cons s ss ih =>
    simp only [arguments, bind_eq_ok_iff, argument_eq_ok_iff, ih, List.forall₂_cons_left_iff]
    constructor
    · rintro ⟨v, hv, ws, hws, h⟩
      exact ⟨v, ws, hv, hws, (Except.ok.inj h).symm⟩
    · rintro ⟨v, ws, hv, hws, rfl⟩
      exact ⟨v, hv, ws, hws, rfl⟩

/-! ## What is put -/

/-- Values that are not void are put as the bytes of arguments are. -/
theorem putValues_eq (h : ∀ v ∈ vs, v.kind ≠ .void) :
    putValues vs = Upcall.receive (vs.map Value.handed) := by
  induction vs with
  | nil => rfl
  | cons v vs ih =>
    have hput : (BufferM.putValue v : BufferM Unit Unit) = BufferM.putRaw v.kind v.bytes :=
      if_neg (h v List.mem_cons_self)
    rw [putValues, hput, ih fun w hw => h w (List.mem_cons_of_mem v hw)]
    rfl

/-- A frame from which values are handed over: it was filled with them one by one, the descriptor
accepts it, and the arguments that are taken from it are the values. -/
structure Marshalled (d : Descriptor) (vs : List Value) (t : Thread Unit) (f : Frame Unit) : Prop where
  populates : Call.Populates (putValues vs) t f
  tags_eq : f.buffer.tags = d.parameters.map Call.single
  accepted : Call.mismatch? d f.buffer.tags = none
  passed_eq : Call.passed d f = vs.map Value.handed
  innermost : t.Innermost f

/-- Values that are not void and fit on a stack can be handed over from it. -/
theorem exists_marshalled {capacity : Nat} {arena : Arena}
    (harena : Arena.withCapacity capacity = .ok arena) (hvoid : ∀ v ∈ vs, v.kind ≠ .void)
    (hroom : (describe vs k).argumentsSize ≤ arena.stack.remaining) :
    ∃ f, Marshalled (describe vs k) vs ⟨arena, ()⟩ f := by
  obtain ⟨rfl, hlimit⟩ := Arena.eq_of_withCapacity_eq_ok harena
  let t : Thread Unit := ⟨.ofCapacity capacity, ()⟩
  let ps := vs.map Value.handed
  let f := t.opened.holding (ps.map Passed.kind) (Call.bytesOf ps)
  have hbase : t.opened.buffer.base = Arena.extentBase := Arena.alignUp_extentBase
  have hopen : ArgumentBuffer.acquire t.arena = .ok t.opened.buffer t.opened.arena :=
    Thread.acquire_of_room hlimit rfl (hbase ▸ Nat.le_add_right _ _)
  have hfits : t.opened.buffer.base + (Call.bytesOf ps).length ≤ t.opened.arena.stack.limit := by
    rw [hbase, Call.length_bytesOf_handed]
    exact Nat.add_le_add_left (hroom.trans (Nat.sub_le _ _)) _
  have hfill : putValues vs t.opened = .ok () f := by
    rw [putValues_eq hvoid]
    exact Upcall.receive_eq_ok (f := t.opened) hlimit rfl rfl rfl
      (fun _ => Call.length_bytes_of_mem_handed) hfits
  have htags : f.buffer.tags = (describe vs k).parameters.map Call.single := by
    change [] ++ (ps.map Passed.kind).map Call.single = _
    rw [List.nil_append, Call.map_kind_handed]
    rfl
  refine ⟨f, ⟨_, _, hopen, hfill⟩, htags, Call.mismatch?_eq_none_iff.2 htags, ?_, rfl, rfl⟩
  rw [Call.passed, ArgumentBuffer.addresses, htags]
  exact Call.handed_of_has (Memory.has_write ..)

variable {d : Descriptor} {t u : Thread Unit} {f : Frame Unit} {code : NativeCode Unit}

theorem Marshalled.invokeValue_of_ok (h : Marshalled d vs t f) {word : Nat}
    (hc : code (vs.map Value.handed) ⟨f.arena, ()⟩ = .ok word u)
    (hframes : u.arena.stack.frames = f.arena.stack.frames) :
    Call.invokeValue (some code) d (putValues vs) t =
      .ok (Call.decodeWord d.returns word) (t.left { f with arena := u.arena, own := u.own }) := by
  obtain ⟨b, a, hopen, hfill⟩ := h.populates
  have hadmits : Call.Admits (some code) none d (putValues vs) t code f :=
    ⟨h.populates, nofun, rfl, h.tags_eq⟩
  have hcall := Call.calling_of_admits hadmits (h.passed_eq ▸ hc)
  have hinner : t.Innermost { f with arena := u.arena, own := u.own } :=
    ⟨hframes.trans h.innermost.frames_eq, h.innermost.depth_eq⟩
  exact hinner.withBuffer_of_ok hopen ((Run.bind_of_ok hfill _).trans hcall)

/-- A failure of the code is that of the invocation. -/
theorem Marshalled.invokeValue_of_error (h : Marshalled d vs t f) {e : CallError}
    (hc : code (vs.map Value.handed) ⟨f.arena, ()⟩ = .error (.error e) u)
    (hframes : u.arena.stack.frames = f.arena.stack.frames) :
    Call.invokeValue (some code) d (putValues vs) t =
      .error (.error e) (t.left { f with arena := u.arena, own := u.own }) := by
  obtain ⟨b, a, hopen, hfill⟩ := h.populates
  have hinner : t.Innermost { f with arena := u.arena, own := u.own } :=
    ⟨hframes.trans h.innermost.frames_eq, h.innermost.depth_eq⟩
  refine hinner.withBuffer_of_error hopen ((Run.bind_of_ok hfill _).trans ?_)
  exact Call.callValue_eq_error_iff h.accepted |>.2 ⟨u, h.passed_eq ▸ hc, rfl⟩

/-- A fault in the code goes through, whatever became of the frames. -/
theorem Marshalled.invokeValue_of_fault (h : Marshalled d vs t f) {c : Fault}
    (hc : code (vs.map Value.handed) ⟨f.arena, ()⟩ = .error (.fault c) u) :
    ∃ v, Call.invokeValue (some code) d (putValues vs) t = .error (.fault c) v := by
  obtain ⟨b, a, hopen, hfill⟩ := h.populates
  have hcall := Call.callValue_eq_error_iff h.accepted |>.2 ⟨u, h.passed_eq ▸ hc, rfl⟩
  exact Call.exists_withBuffer_of_fault hopen ((Run.bind_of_ok hfill _).trans hcall)

theorem Marshalled.of_invokeValue_eq_error (h : Marshalled d vs t f) {e : CallError}
    (hr : Call.invokeValue (some code) d (putValues vs) t = .error (.error e) u) :
    ∃ u, code (vs.map Value.handed) ⟨f.arena, ()⟩ = .error (.error e) u := by
  obtain ⟨b, a, g, hopen, hrun⟩ := Call.exists_of_withBuffer_eq_error hr
  obtain ⟨c, z, hopen', hfill⟩ := h.populates
  obtain ⟨rfl, rfl⟩ := EStateM.Result.ok.inj (hopen'.symm.trans hopen)
  rw [Run.bind_of_ok hfill] at hrun
  obtain ⟨v, hv, _⟩ := Call.callValue_eq_error_iff h.accepted |>.1 hrun
  exact ⟨v, h.passed_eq ▸ hv⟩

/-- Where everything that a call reads is in order, its report is that of the invocation. -/
theorem call_eq {around : Surroundings} {library symbol returns : String} {now : Bool}
    (verbose : Bool) (hreturns : kind returns = .ok k) (hliterals : arguments ss = .ok vs)
    (hcode : codeOf around library symbol (if now then .now else .lazy) = .ok code) :
    call around library symbol returns now ss verbose = ofResult symbol (describe vs k) verbose
      (Call.invokeValue (some code) (describe vs k) (putValues vs)
        ⟨.ofCapacity around.config.stackSize, ()⟩) := by
  rw [call, hreturns, ok_bind, hliterals, ok_bind]
  dsimp only
  rw [hcode, ok_bind]

/-- Values that arguments write are of the kinds that the arguments name, and none of them is void.
Where the stack has room for all of them and the symbol is found, each is put, the descriptor that is
made of them accepts what was put, and the code is entered with the bytes of the values one by one. What
is reported is then the code's own: its word as a value of the kind that was asked for, or its failure;
no other failure can be. -/
theorem call_marshals (around : Surroundings) (library symbol returns : String) (now verbose : Bool)
    (literals : List String) {k : CallKind} {vs : List Value} {code : NativeCode Unit} {arena : Arena}
    (hreturns : kind returns = .ok k) (hliterals : arguments literals = .ok vs)
    (hcode : codeOf around library symbol (if now then .now else .lazy) = .ok code)
    (harena : Arena.withCapacity around.config.stackSize = .ok arena)
    (hroom : (describe vs k).argumentsSize ≤ arena.stack.remaining) :
    List.Forall₂ Spells literals vs ∧
    ∃ f, Marshalled (describe vs k) vs ⟨arena, ()⟩ f ∧
      let report := call around library symbol returns now literals verbose
      let entered := code (vs.map Value.handed) ⟨f.arena, ()⟩
      (∀ word u, entered = .ok word u → u.arena.stack.frames = f.arena.stack.frames →
        report = .ok (lines
          ((if verbose then ["call: " ++ symbol ++ (describe vs k).text] else []) ++
            [if k = .void then symbol ++ " returned"
              else symbol ++ " => " ++ (Call.decodeWord k word).text]))) ∧
      (∀ e u, entered = .error (.error e) u → u.arena.stack.frames = f.arena.stack.frames →
        report = .error (.failed [e.message])) ∧
      (∀ c u, entered = .error (.fault c) u → report = .error (.fault c)) ∧
      ∀ messages, report = .error (.failed messages) →
        ∃ e u, entered = .error (.error e) u ∧ messages = [e.message] := by
  have hspells := arguments_eq_ok_iff.1 hliterals
  have hvoid : ∀ v ∈ vs, v.kind ≠ .void := by
    intro v hv
    obtain ⟨s, hs⟩ := exists_forall₂_iff.1 ⟨_, hspells.flip⟩ v hv
    exact hs.kind_ne_void
  obtain ⟨f, hf⟩ := exists_marshalled harena hvoid hroom
  obtain ⟨rfl, _⟩ := Arena.eq_of_withCapacity_eq_ok harena
  have hreport := call_eq verbose hreturns hliterals hcode
  refine ⟨hspells, f, hf, ?_, ?_, ?_, ?_⟩
  · intro word u hu hframes
    rw [hreport, hf.invokeValue_of_ok hu hframes]
    rfl
  · intro e u hu hframes
    rw [hreport, hf.invokeValue_of_error hu hframes]
    rfl
  · intro c u hu
    obtain ⟨v, hv⟩ := hf.invokeValue_of_fault hu
    rw [hreport, hv]
    rfl
  · intro messages hr
    rw [hreport] at hr
    unfold ofResult at hr
    split at hr
    · rename_i e u he
      obtain ⟨u, hu⟩ := hf.of_invokeValue_eq_error he
      cases hr
      exact ⟨e, u, hu, rfl⟩
    · cases hr
    · cases hr

/-- Minus five, a colon and two and a half are handed over in fifteen bytes with a truth value. -/
theorem call_marshals_mixed :
    let around : Surroundings := ⟨⟨256⟩, Standard.loader, fun _ => .error ""⟩
    let literals := [" int :-5", "char::", "double:2.5", "bool: true"]
    let vs : List Value :=
      [.ofInt .int (-5), .ofBits .char 58, .ofBits .double 0x4004000000000000, .ofBool true]
    let d : Descriptor := ⟨.int, [.int, .char, .double, .bool]⟩
    kind "int" = .ok .int ∧ arguments literals = .ok vs ∧
      codeOf around "libc.so.6" "abs" .lazy = .ok (Standard.unary (Standard.absolute 32)) ∧
      Arena.withCapacity 256 = .ok (.ofCapacity 256) ∧ d.argumentsSize = 15 ∧
      ∃ f, Call.Populates (putValues vs) ⟨.ofCapacity 256, ()⟩ f ∧
        f.buffer.tags = [⟨.int, 1⟩, ⟨.char, 1⟩, ⟨.double, 1⟩, ⟨.bool, 1⟩] ∧
        Call.passed d f = [⟨.int, [0xfb, 0xff, 0xff, 0xff]⟩, ⟨.char, [58, 0]⟩,
          ⟨.double, [0, 0, 0, 0, 0, 0, 4, 0x40]⟩, ⟨.bool, [1]⟩] ∧
        call around "libc.so.6" "abs" "int" false literals true =
          .ok "call: abs(int, char, double, bool) -> int\nabs => 5\n" := by
  intro around literals vs d
  have hliterals : arguments literals = .ok vs := arguments_eq_ok_iff.2
    (.cons ⟨" int ".toList, "-5".toList, rfl, by decide, rfl, by decide, rfl⟩
      (.cons ⟨"char".toList, ":".toList, rfl, by decide, rfl, by decide, rfl⟩
        (.cons ⟨"double".toList, "2.5".toList, rfl, by decide, rfl, by decide, by decide +kernel⟩
          (.cons ⟨"bool".toList, " true".toList, rfl, by decide, rfl, by decide, rfl⟩ .nil))))
  have hcode : codeOf around "libc.so.6" "abs" .lazy = .ok (Standard.unary (Standard.absolute 32)) :=
    rfl
  have hroom : (describe vs .int).argumentsSize ≤ (Arena.ofCapacity 256).stack.remaining := by decide
  obtain ⟨_, f, hf, hreturned, _⟩ :=
    call_marshals around "libc.so.6" "abs" "int" false true literals rfl hliterals hcode rfl hroom
  exact ⟨rfl, hliterals, hcode, rfl, rfl, f, hf.populates, hf.tags_eq,
    hf.passed_eq.trans (by decide +kernel),
    (hreturned _ _ rfl rfl).trans (congrArg Except.ok (by decide +kernel))⟩

end Report

end NativeBridge
