import NativeBridge.Proofs.Mangling.Completeness

/-! # Derivations of mangled types

A derivation is a tree of the grammar of mangled types, with all that a text of the grammar shows:
the letters and names, each application with its arguments, also where there are none, and for an
array the number of its opening marks and what stands behind each closing mark. Applications behind
the last closing mark belong to that level, so an array has no others. What a derivation describes
depends on the fields of structs, and on nothing else outside it.
-/
namespace NativeBridge.Mangled

mutual

inductive Derivation
  | letter (kind : Kind) (applied : Applications)
  | reference (name : List Char) (applied : Applications)
  | struct (name : List Char) (applied : Applications)
  | array (opened : Nat) (element : Derivation) (levels : Levels)

inductive Applications
  | none
  | more (arguments : Arguments) (rest : Applications)

inductive Arguments
  | none
  | star (rest : Arguments)
  | type (type : Derivation) (rest : Arguments)

inductive Levels
  | last (applied : Applications)
  | more (applied : Applications) (rest : Levels)

end

mutual

def Derivation.text : Derivation → List Char
  | .letter k as => k.code :: as.text
  | .reference cs as => openMark 'C' ++ cs ++ closeMark 'C' ++ as.text
  | .struct cs as => openMark 'S' ++ cs ++ closeMark 'S' ++ as.text
  | .array n e ls => repeatMark (openMark 'A') n ++ (e.text ++ ls.text)

def Applications.text : Applications → List Char
  | .none => []
  | .more args as => openMark 'T' ++ args.text ++ closeMark 'T' ++ as.text

def Arguments.text : Arguments → List Char
  | .none => []
  | .star args => '_' :: args.text
  | .type d args => d.text ++ args.text

def Levels.text : Levels → List Char
  | .last as => closeMark 'A' ++ as.text
  | .more as ls => closeMark 'A' ++ as.text ++ ls.text

end

def Derivation.isArray : Derivation → Bool
  | .array _ _ _ => true
  | _ => false

/-- The number of closing marks. -/
def Levels.count : Levels → Nat
  | .last _ => 1
  | .more _ ls => ls.count + 1

/-- The name that stands between marks: there is an underscore, but not at the end, and what is
behind the last one is the short name. -/
def nameOf? (cs : List Char) : Option SymbolName :=
  if '$' ∉ cs ∧ '_' ∈ cs ∧ cs.getLast? ≠ some '_' then
    some (SymbolName.ofParts (SymbolName.restoreDots (SymbolName.upToLast '_' cs).dropLast)
      (SymbolName.afterLast '_' cs))
  else none

/-- A number of dimensions, unless it is too great for one. -/
def dimensions? (n : Nat) : Option UInt32 := if n < UInt32.size then some (UInt32.ofNat n) else none

mutual

/-- The type that a derivation describes, if it keeps the rules of the grammar. -/
def Derivation.type? (resolve : Resolver) : Derivation → Option Ty
  | .letter k as => as.appliedTo? resolve (.builtin k)
  | .reference cs as => do
    let n ← nameOf? cs
    as.appliedTo? resolve (.reference n)
  | .struct cs as => do
    let n ← nameOf? cs
    let fields ← resolve n
    as.appliedTo? resolve (.struct n fields)
  | .array n e ls =>
    if e.isArray || n < ls.count then Option.none
    else do
      let t ← e.type? resolve
      let dims ← dimensions? (n - (ls.count - 1))
      ls.around? resolve dims t

/-- The type that comes of another by applications, where those to no arguments add nothing. -/
def Applications.appliedTo? (resolve : Resolver) : Applications → Ty → Option Ty
  | .none, t => some t
  | .more args as, t => do
    let arguments ← args.types? resolve
    as.appliedTo? resolve (t.apply arguments)

def Arguments.types? (resolve : Resolver) : Arguments → Option (List TypeArgument)
  | .none => some []
  | .star args => do return .star :: (← args.types? resolve)
  | .type d args => do return .concrete (← d.type? resolve) :: (← args.types? resolve)

/-- Arrays around an element, the outermost of `dims` elements and every other of one. -/
def Levels.around? (resolve : Resolver) (dims : UInt32) : Levels → Ty → Option Ty
  | .last as, t => as.appliedTo? resolve (.array t dims)
  | .more as ls, t => do
    let level ← as.appliedTo? resolve (.array t 1)
    ls.around? resolve dims level

end


theorem nameOf?_eq_some_iff {cs : List Char} {n : SymbolName} :
    nameOf? cs = some n ↔ '$' ∉ cs ∧ SymbolName.ofMangled (String.ofList cs) = .ok n := by
  rw [SymbolName.ofMangled_eq_ok_iff]
  by_cases hu : '_' ∈ cs
  · obtain ⟨package, short, rfl, hs⟩ := SymbolName.exists_last hu
    have hend : (package ++ '_' :: short).getLast? = some '_' ↔ short = [] := by
      rw [List.getLast?_append, List.getLast?_cons, Option.some_or, Option.some_inj]
      cases hl : short.getLast? with
      | none => simpa using hl
      | some c =>
        have hc : c ∈ short := List.mem_of_getLast? hl
        have hne : c ≠ '_' := fun h => hs (h ▸ hc)
        simpa [hne] using List.ne_nil_of_mem hc
    have hd : (SymbolName.upToLast '_' (package ++ '_' :: short)).dropLast = package := by
      rw [SymbolName.upToLast_append hs, List.dropLast_concat]
    simp only [nameOf?, SymbolName.afterLast_append hs, hd, ne_eq, hend]
    constructor
    · intro h
      split at h
      · rename_i hc
        exact ⟨hc.1, package, short, rfl, hs, hc.2.2, (Option.some.inj h).symm⟩
      · cases h
    · rintro ⟨hm, front, tail, hcs, ht, hne, rfl⟩
      -- both cuts are at the last underscore
      have hfront := congrArg (SymbolName.upToLast '_') hcs
      rw [SymbolName.upToLast_append hs, SymbolName.upToLast_append ht] at hfront
      have htail := congrArg (SymbolName.afterLast '_') hcs
      rw [SymbolName.afterLast_append hs, SymbolName.afterLast_append ht] at htail
      obtain rfl := List.append_cancel_right hfront
      subst htail
      rw [if_pos ⟨hm, hu, hne⟩]
  · have hn : nameOf? cs = none := if_neg fun h => hu h.2.1
    rw [hn]
    constructor
    · intro h
      cases h
    · rintro ⟨_, package, short, rfl, _⟩
      simp at hu

theorem dimensions?_eq_some_iff {n : Nat} {d : UInt32} :
    dimensions? n = some d ↔ d.toNat = n := by
  unfold dimensions?
  split
  · rename_i h
    rw [Option.some_inj, ← UInt32.toNat_inj, UInt32.toNat_ofNat_of_lt' h]
    exact eq_comm
  · rename_i h
    have hd := d.toNat_lt_size
    simp only [reduceCtorEq, false_iff]
    omega

theorem Levels.count_pos (ls : Levels) : 0 < ls.count := by
  cases ls <;> simp [count]

/-- What must hold of an array for it to describe a type. -/
theorem type?_array_eq_some_iff {resolve : Resolver} {n : Nat} {e : Derivation} {ls : Levels}
    {t : Ty} : (Derivation.array n e ls).type? resolve = some t ↔
      e.isArray = false ∧ ls.count ≤ n ∧ ∃ u dims, e.type? resolve = some u ∧
        dimensions? (n - (ls.count - 1)) = some dims ∧ ls.around? resolve dims u = some t := by
  have hr : (Derivation.array n e ls).type? resolve =
      if e.isArray || n < ls.count then none
      else e.type? resolve >>= fun u => dimensions? (n - (ls.count - 1)) >>= fun dims =>
        ls.around? resolve dims u := rfl
  rw [hr]
  by_cases h : e.isArray || n < ls.count
  · rw [if_pos h]
    simp only [Bool.or_eq_true, decide_eq_true_eq] at h
    simp only [reduceCtorEq, false_iff]
    rintro ⟨ha, hc, _⟩
    rcases h with h | h
    · rw [ha] at h
      cases h
    · omega
  · rw [if_neg h]
    simp only [Bool.or_eq_true, decide_eq_true_eq, not_or, Bool.not_eq_true, not_lt] at h
    simp only [Option.bind_eq_bind, Option.bind_eq_some_iff, h.1, h.2, true_and]
    constructor
    · rintro ⟨u, hu, dims, hd, h⟩
      exact ⟨u, dims, hu, hd, h⟩
    · rintro ⟨u, dims, hu, hd, h⟩
      exact ⟨u, hu, dims, hd, h⟩

/-- Only an array starts with the opening mark of one. -/
theorem not_openArray_text {d : Derivation} (h : d.isArray = false) :
    ¬ openMark 'A' <+: d.text := by
  cases d with
  | letter k as =>
    intro hp
    have hc : 'A' = k.code := (List.cons_prefix_cons.1 hp).1
    cases k <;> exact absurd hc (by decide)
  | reference cs as => simp [Derivation.text, openMark]
  | struct cs as => simp [Derivation.text, openMark]
  | array n e ls => cases h

section
variable {resolve : Resolver}

mutual

/-- What a derivation describes is a type of the grammar, nested no deeper than it is high. -/
theorem Derivation.within : ∀ (d : Derivation) {b : Nat} {t : Ty},
    d.type? resolve = some t → t.height ≤ b → Within resolve b d.text t
  | .letter k as, b, t, h, hb => by
    obtain ⟨b, rfl⟩ := Nat.exists_eq_add_one.2 (t.height_pos.trans_le hb)
    obtain ⟨groups, hg, rfl⟩ := as.items h hb
    exact .plain (.builtin k) hg
  | .reference cs as, b, t, h, hb => by
    obtain ⟨b, rfl⟩ := Nat.exists_eq_add_one.2 (t.height_pos.trans_le hb)
    obtain ⟨n, hn, h⟩ := Option.bind_eq_some_iff.1 h
    obtain ⟨hm, hn⟩ := nameOf?_eq_some_iff.1 hn
    obtain ⟨groups, hg, rfl⟩ := as.items h hb
    exact .plain (.reference (.mk hm hn)) hg
  | .struct cs as, b, t, h, hb => by
    obtain ⟨b, rfl⟩ := Nat.exists_eq_add_one.2 (t.height_pos.trans_le hb)
    obtain ⟨n, hn, h⟩ := Option.bind_eq_some_iff.1 h
    obtain ⟨fields, hf, h⟩ := Option.bind_eq_some_iff.1 h
    obtain ⟨hm, hn⟩ := nameOf?_eq_some_iff.1 hn
    obtain ⟨groups, hg, rfl⟩ := as.items h hb
    exact .plain (.struct (.mk hm hn) hf) hg
  | .array n e ls, b, t, h, hb => by
    obtain ⟨b, rfl⟩ := Nat.exists_eq_add_one.2 (t.height_pos.trans_le hb)
    obtain ⟨ha, hc, u, dims, hu, hd, h⟩ := type?_array_eq_some_iff.1 h
    obtain ⟨mid, last, levels, groups, hs, hmid, hlast, hlen, rfl⟩ := ls.items h hb
    have hd := dimensions?_eq_some_iff.1 hd
    have he : u.height ≤ b := by
      have hn := Ty.height_le_nested u levels
      have hg := Ty.height_succ_le_applied (u.nested levels) dims groups
      omega
    have hA := not_openArray_text ha
    have hlt : levels.length < n := by omega
    have hw : UInt32.ofNat (n - levels.length) = dims := by
      rw [← UInt32.toNat_inj, UInt32.toNat_ofNat_of_lt' (by have := dims.toNat_lt_size; omega)]
      omega
    rw [Derivation.text, hs, ← hw]
    exact .array (e.within hu he) hA hmid hlast hlt

theorem Applications.items : ∀ (as : Applications) {b : Nat} {t u : Ty},
    as.appliedTo? resolve t = some u → u.height ≤ b + 1 →
      ∃ groups, Items (GroupText (Within resolve b)) as.text groups ∧ u = t.applied groups
  | .none, b, t, u, h, _ => ⟨[], .nil, (Option.some.inj h).symm⟩
  | .more args as, b, t, u, h, hb => by
    obtain ⟨ts, ht, h⟩ := Option.bind_eq_some_iff.1 h
    obtain ⟨groups, hg, rfl⟩ := as.items h hb
    have ha := Ty.argumentHeights_le_applied t (List.mem_cons_self (a := ts) (l := groups))
    rw [Ty.applied_cons] at ha
    exact ⟨ts :: groups, .cons (.mk (args.items ht (by omega))) hg, rfl⟩

theorem Arguments.items : ∀ (args : Arguments) {b : Nat} {ts : List TypeArgument},
    args.types? resolve = some ts → Ty.argumentHeights ts ≤ b →
      Items (ArgumentText (Within resolve b)) args.text ts
  | .none, b, ts, h, _ => by
    cases h
    exact .nil
  | .star args, b, ts, h, hb => by
    obtain ⟨us, hu, h⟩ := Option.bind_eq_some_iff.1 h
    cases h
    rw [Ty.argumentHeights, Ty.argumentHeight, Nat.zero_max] at hb
    exact .cons .star (args.items hu hb)
  | .type d args, b, ts, h, hb => by
    obtain ⟨t, ht, h⟩ := Option.bind_eq_some_iff.1 h
    obtain ⟨us, hu, h⟩ := Option.bind_eq_some_iff.1 h
    cases h
    rw [Ty.argumentHeights, Ty.argumentHeight, max_le_iff] at hb
    exact .cons (.concrete (d.within ht hb.1)) (args.items hu hb.2)

theorem Levels.items : ∀ (ls : Levels) {b : Nat} {dims : UInt32} {t u : Ty},
    ls.around? resolve dims t = some u → u.height ≤ b + 1 →
      ∃ mid last levels groups, ls.text = mid ++ last ∧
        Items (LevelText (Within resolve b)) mid levels ∧
        LevelText (Within resolve b) last groups ∧ levels.length + 1 = ls.count ∧
        u = (Ty.array (t.nested levels) dims).applied groups
  | .last as, b, dims, t, u, h, hb => by
    obtain ⟨groups, hg, rfl⟩ := as.items h hb
    exact ⟨[], _, [], groups, rfl, .nil, .mk hg, rfl, rfl⟩
  | .more as ls, b, dims, t, u, h, hb => by
    obtain ⟨v, hv, h⟩ := Option.bind_eq_some_iff.1 h
    obtain ⟨mid, last, levels, groups, hs, hmid, hlast, hlen, rfl⟩ := ls.items h hb
    have hh : v.height ≤ b + 1 := by
      have hn := Ty.height_le_nested v levels
      have hg := Ty.height_succ_le_applied (v.nested levels) dims groups
      omega
    obtain ⟨first, hf, rfl⟩ := as.items hv hh
    refine ⟨closeMark 'A' ++ as.text ++ mid, last, first :: levels, groups, ?_,
      .cons (.mk hf) hmid, hlast, ?_, rfl⟩
    · simp only [Levels.text, hs, List.append_assoc]
    · rw [List.length_cons, hlen, Levels.count]

end


theorem openArray_text {d : Derivation} {t : Ty} (h : d.type? resolve = some t)
    (ha : d.isArray = true) : openMark 'A' <+: d.text := by
  cases d with
  | array n e ls =>
    have hc := (type?_array_eq_some_iff.1 h).2.1
    obtain ⟨k, rfl⟩ := Nat.exists_eq_add_one.2 (ls.count_pos.trans_le hc)
    rw [Derivation.text, repeatMark_succ, List.append_assoc]
    exact List.prefix_append _ _
  | letter k as => cases ha
  | reference cs as => cases ha
  | struct cs as => cases ha

/-- Texts that have a derivation of what they stand for, as long as opening marks can be counted. -/
def Derived (resolve : Resolver) (inner : Texts Ty) : Prop :=
  ∀ s t, inner s t → s.length < 2 ^ 32 → ∃ d : Derivation, d.text = s ∧ d.type? resolve = some t

variable {inner : Texts Ty} {s : List Char}

theorem Derived.exists_arguments (hi : Derived resolve inner) {ts : List TypeArgument}
    (h : Items (ArgumentText inner) s ts) (hl : s.length < 2 ^ 32) :
    ∃ args : Arguments, args.text = s ∧ args.types? resolve = some ts := by
  induction h with
  | nil => exact ⟨.none, rfl, rfl⟩
  | cons ha _ ih =>
    rw [List.length_append] at hl
    obtain ⟨args, rfl, hargs⟩ := ih (by omega)
    cases ha with
    | star => exact ⟨.star args, rfl, by simp [Arguments.types?, hargs]⟩
    | concrete ht =>
      obtain ⟨d, rfl, hd⟩ := hi _ _ ht (by omega)
      exact ⟨.type d args, rfl, by simp [Arguments.types?, hd, hargs]⟩

theorem Derived.exists_applications (hi : Derived resolve inner)
    {groups : List (List TypeArgument)} (h : Items (GroupText inner) s groups)
    (hl : s.length < 2 ^ 32) :
    ∃ as : Applications, as.text = s ∧ ∀ t, as.appliedTo? resolve t = some (t.applied groups) := by
  induction h with
  | nil => exact ⟨.none, rfl, fun t => rfl⟩
  | cons ha _ ih =>
    obtain ⟨ha⟩ := ha
    simp only [List.length_append] at hl
    obtain ⟨as, rfl, has⟩ := ih (by omega)
    obtain ⟨args, rfl, hargs⟩ := hi.exists_arguments ha (by omega)
    exact ⟨.more args as, rfl, fun t => by simp [Applications.appliedTo?, hargs, has]⟩

theorem Derived.exists_levels (hi : Derived resolve inner) {mid last : List Char}
    {levels : List (List (List TypeArgument))} {groups : List (List TypeArgument)}
    (hmid : Items (LevelText inner) mid levels) (hlast : LevelText inner last groups)
    (hl : (mid ++ last).length < 2 ^ 32) :
    ∃ ls : Levels, ls.text = mid ++ last ∧ ls.count = levels.length + 1 ∧ ∀ dims t,
      ls.around? resolve dims t = some ((Ty.array (t.nested levels) dims).applied groups) := by
  induction hmid with
  | nil =>
    obtain ⟨hg⟩ := hlast
    simp only [List.nil_append, List.length_append] at hl
    obtain ⟨as, rfl, has⟩ := hi.exists_applications hg (by omega)
    exact ⟨.last as, rfl, rfl, fun dims t => has _⟩
  | cons ha _ ih =>
    obtain ⟨ha⟩ := ha
    simp only [List.length_append] at hl ih
    obtain ⟨ls, hls, hc, har⟩ := ih (by omega)
    obtain ⟨as, rfl, has⟩ := hi.exists_applications ha (by omega)
    refine ⟨.more as ls, ?_, ?_, fun dims t => ?_⟩
    · simp only [Levels.text, hls, List.append_assoc]
    · rw [Levels.count, hc, List.length_cons]
    · simp [Levels.around?, has, har]

theorem derived_within (resolve : Resolver) (b : Nat) : Derived resolve (Within resolve b) := by
  induction b with
  | zero => exact fun _ _ h => absurd h not_false
  | succ b ih =>
    intro s t h hl
    cases h with
    | plain hp hg =>
      rw [List.length_append] at hl
      obtain ⟨as, rfl, has⟩ := ih.exists_applications hg (by omega)
      cases hp with
      | builtin k => exact ⟨.letter k as, rfl, has _⟩
      | reference hn =>
        obtain ⟨hm, hn⟩ := hn
        have hname := nameOf?_eq_some_iff.2 ⟨hm, hn⟩
        exact ⟨.reference _ as, rfl, by simp [Derivation.type?, hname, has]⟩
      | struct hn hf =>
        obtain ⟨hm, hn⟩ := hn
        have hname := nameOf?_eq_some_iff.2 ⟨hm, hn⟩
        exact ⟨.struct _ as, rfl, by simp [Derivation.type?, hname, hf, has]⟩
    | @array n s mid last e levels groups hs hA hmid hlast hlt =>
      simp only [List.length_append, length_repeatMark] at hl
      obtain ⟨d, rfl, hd⟩ := ih _ _ hs (by omega)
      obtain ⟨ls, hls, hc, har⟩ := ih.exists_levels hmid hlast (by rw [List.length_append]; omega)
      have ha : d.isArray = false := by
        by_contra ha
        exact hA (openArray_text hd (by simpa using ha))
      have hdims : dimensions? (n - (ls.count - 1)) = some (UInt32.ofNat (n - levels.length)) := by
        rw [dimensions?_eq_some_iff, UInt32.toNat_ofNat_of_lt' (show _ < 2 ^ 32 by omega)]
        omega
      refine ⟨.array n d ls, ?_, type?_array_eq_some_iff.2 ⟨ha, by omega, e, _, hd, hdims, har _ _⟩⟩
      rw [Derivation.text, hls]

end

end NativeBridge.Mangled
