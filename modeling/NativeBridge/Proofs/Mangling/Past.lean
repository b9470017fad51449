import Mathlib.Data.List.Infix
import Mathlib.Data.List.TakeWhile
import Mathlib.Data.String.Basic
import NativeBridge.Mangling.Demangle
import NativeBridge.Proofs.Name.Mangling
import NativeBridge.Proofs.Basic

/-! # What a parser leaves behind

A parser that succeeds has moved its cursor past some text. Each of the small parsers is
characterized by the text that it takes.
-/
namespace NativeBridge

theorem repeatMark_zero (mark : List Char) : repeatMark mark 0 = [] := rfl

theorem repeatMark_succ (mark : List Char) (n : Nat) :
    repeatMark mark (n + 1) = mark ++ repeatMark mark n := by
  rw [repeatMark, List.replicate_succ, List.flatten_cons, repeatMark]

theorem repeatMark_add (mark : List Char) (m n : Nat) :
    repeatMark mark (m + n) = repeatMark mark m ++ repeatMark mark n := by
  rw [repeatMark, ← List.replicate_append_replicate, List.flatten_append, repeatMark, repeatMark]

theorem length_repeatMark (n : Nat) : (repeatMark (openMark 'A') n).length = 2 * n := by
  induction n with
  | zero => rfl
  | succ n ih =>
    rw [repeatMark_succ, List.length_append, ih]
    change 2 + 2 * n = _
    omega

namespace Demangle

theorem utf8Length_cons (c : Char) (cs : List Char) :
    utf8Length (c :: cs) = c.utf8Size + utf8Length cs := by
  have h : ∀ (cs : List Char) (n : Nat),
      cs.foldl (fun n c => n + c.utf8Size) n = n + utf8Length cs := by
    intro cs
    induction cs with
    | nil => exact fun n => rfl
    | cons d cs ih =>
      intro n
      rw [utf8Length, List.foldl_cons, List.foldl_cons, ih, ih (0 + d.utf8Size)]
      omega
  rw [utf8Length, List.foldl_cons, h, Nat.zero_add]

theorem utf8Length_append (cs ds : List Char) :
    utf8Length (cs ++ ds) = utf8Length cs + utf8Length ds := by
  induction cs with
  | nil => exact (Nat.zero_add _).symm
  | cons c cs ih =>
    rw [List.cons_append, utf8Length_cons, utf8Length_cons, ih, Nat.add_assoc]

theorem utf8Length_eq_utf8Len (cs : List Char) : utf8Length cs = String.utf8Len cs := by
  induction cs with
  | nil => rfl
  | cons c cs ih => rw [utf8Length_cons, ih, String.utf8Len, Nat.add_comm]

theorem utf8Length_toList (s : String) : utf8Length s.toList = s.utf8ByteSize := by
  rw [utf8Length_eq_utf8Len, String.utf8Len_toList]

/-- A text has no more characters than bytes. -/
theorem length_le_utf8Length (cs : List Char) : cs.length ≤ utf8Length cs := by
  induction cs with
  | nil => exact Nat.zero_le _
  | cons c cs ih =>
    have hc := c.utf8Size_pos
    rw [utf8Length_cons, List.length_cons]
    omega

theorem length_le_utf8ByteSize (s : String) : s.toList.length ≤ s.utf8ByteSize := by
  rw [← utf8Length_toList]
  exact length_le_utf8Length s.toList

/-- `d` is `c` moved past `text`. -/
structure Cursor.Past (c : Cursor) (text : List Char) (d : Cursor) : Prop where
  rest : c.rest = text ++ d.rest
  offset : d.offset = c.offset + utf8Length text
  depth : d.depth = c.depth

namespace Cursor

variable {c d e : Cursor} {s t : List Char}

theorem Past.refl (c : Cursor) : c.Past [] c := ⟨rfl, rfl, rfl⟩

theorem Past.trans (h : c.Past s d) (k : d.Past t e) : c.Past (s ++ t) e := by
  refine ⟨?_, ?_, ?_⟩
  · rw [h.rest, k.rest, List.append_assoc]
  · rw [k.offset, h.offset, utf8Length_append, Nat.add_assoc]
  · rw [k.depth, h.depth]

theorem Past.split (h : c.Past (s ++ t) e) : ∃ d, c.Past s d ∧ d.Past t e := by
  refine ⟨⟨t ++ e.rest, c.offset + utf8Length s, c.depth⟩, ⟨?_, rfl, rfl⟩, ⟨rfl, ?_, h.depth⟩⟩
  · rw [h.rest, List.append_assoc]
  · rw [h.offset, utf8Length_append, Nat.add_assoc]

/-- Past the same text there is only one cursor. -/
theorem Past.unique (h : c.Past s d) (k : c.Past s e) : d = e := by
  have hr : d.rest = e.rest := List.append_cancel_left (h.rest.symm.trans k.rest)
  have ho := h.offset.trans k.offset.symm
  have hd := h.depth.trans k.depth.symm
  cases d
  cases e
  simp_all

theorem past_nil_iff : c.Past [] d ↔ d = c :=
  ⟨fun h => h.unique (Past.refl c), fun h => h ▸ Past.refl c⟩

theorem Past.length_le (h : c.Past s d) : d.rest.length ≤ c.rest.length := by
  rw [h.rest, List.length_append]
  omega

theorem Past.length_lt (h : c.Past s d) (hs : s ≠ []) :
    d.rest.length < c.rest.length := by
  have hpos := List.length_pos_of_ne_nil hs
  rw [h.rest, List.length_append]
  omega

theorem Past.length_text_le (h : c.Past s d) : s.length ≤ c.rest.length := by
  rw [h.rest, List.length_append]
  omega

/-- A move one level further down is a move, once that level is left. -/
theorem past_deeper_iff :
    (∃ e, Past { c with depth := c.depth + 1 } s e ∧ d = { e with depth := e.depth - 1 }) ↔
      c.Past s d := by
  constructor
  · rintro ⟨e, h, rfl⟩
    exact ⟨h.rest, h.offset, by rw [h.depth, Nat.add_sub_cancel]⟩
  · intro h
    refine ⟨{ d with depth := d.depth + 1 }, ⟨h.rest, h.offset, ?_⟩, rfl⟩
    exact congrArg (· + 1) h.depth

end Cursor

section
variable {α : Type} {c d : Cursor}

theorem run_eq_ok_iff {p : Parser α} {cs : List Char} {a : α} :
    run p cs = .ok a ↔ ∃ d, p ⟨cs, 0, 0⟩ = .ok a d := by
  unfold run
  cases p ⟨cs, 0, 0⟩ with
  | ok b e => simp
  | error f e => simp

theorem unexpected_ne_ok {a : α} : unexpected c ≠ .ok a d := by
  unfold unexpected
  cases c.rest <;> simp

/-- A parser behind a test that must come out negative. -/
theorem unless_eq_ok_iff {q : Prop} [Decidable q] {p : Parser α} {a : α} :
    (if q then do unexpected; p else p) c = .ok a d ↔ ¬ q ∧ p c = .ok a d := by
  by_cases h : q
  · simp [h, Run.bind_eq_ok_iff, unexpected_ne_ok]
  · simp [h]

theorem atEnd_eq_ok_iff {b : Bool} : atEnd c = .ok b d ↔ b = c.rest.isEmpty ∧ d = c := by
  simp only [atEnd, Run.bind_eq_ok_iff, Run.get_eq_ok_iff, Run.pure_eq_ok_iff]
  constructor
  · rintro ⟨_, _, ⟨rfl, rfl⟩, hb, hd⟩
    exact ⟨hb, hd⟩
  · rintro ⟨hb, hd⟩
    exact ⟨c, c, ⟨rfl, rfl⟩, hb, hd⟩

theorem eat_eq_ok_iff {mark : List Char} {b : Bool} : eat mark c = .ok b d ↔
    (b = true ∧ c.Past mark d) ∨ (b = false ∧ d = c ∧ ¬ mark <+: c.rest) := by
  unfold eat
  cases h : mark.isPrefixOf? c.rest with
  | some rest =>
    have hr := List.append_eq_of_isPrefixOf?_eq_some h
    have hp : c.Past mark { c with rest, offset := c.offset + utf8Length mark } :=
      ⟨hr.symm, rfl, rfl⟩
    simp only [EStateM.Result.ok.injEq]
    constructor
    · rintro ⟨rfl, rfl⟩
      exact .inl ⟨rfl, hp⟩
    · rintro (⟨rfl, hd⟩ | ⟨_, _, hn⟩)
      · exact ⟨rfl, hp.unique hd⟩
      · exact absurd ⟨rest, hr⟩ hn
  | none =>
    have hn : ¬ mark <+: c.rest := by
      rintro ⟨rest, hr⟩
      rw [List.isPrefixOf?_eq_some_iff_append_eq.2 hr] at h
      cases h
    simp only [EStateM.Result.ok.injEq]
    constructor
    · rintro ⟨rfl, rfl⟩
      exact .inr ⟨rfl, rfl, hn⟩
    · rintro (⟨_, hd⟩ | ⟨rfl, rfl, _⟩)
      · exact absurd ⟨d.rest, hd.rest.symm⟩ hn
      · exact ⟨rfl, rfl⟩

theorem eat_of_past {mark : List Char} (h : c.Past mark d) : eat mark c = .ok true d :=
  eat_eq_ok_iff.2 (.inl ⟨rfl, h⟩)

theorem eat_of_absent {mark : List Char} (h : ¬ mark <+: c.rest) :
    eat mark c = .ok false c :=
  eat_eq_ok_iff.2 (.inr ⟨rfl, rfl, h⟩)

theorem expect_eq_ok_iff {mark : List Char} {u : Unit} :
    expect mark c = .ok u d ↔ c.Past mark d := by
  simp only [expect, Run.bind_eq_ok_iff, eat_eq_ok_iff]
  constructor
  · rintro ⟨b, e, ⟨rfl, he⟩ | ⟨rfl, _, _⟩, h⟩
    · obtain ⟨_, rfl⟩ := Run.pure_eq_ok_iff.1 h
      exact he
    · exact absurd h unexpected_ne_ok
  · intro h
    exact ⟨true, d, .inl ⟨rfl, h⟩, Run.pure_eq_ok_iff.2 ⟨rfl, rfl⟩⟩

theorem nest_eq_ok_iff {child h : Nat} :
    nest child c = .ok h d ↔ child + 1 ≤ maxNesting ∧ h = child + 1 ∧ d = c := by
  unfold nest
  split
  · rename_i hm
    simp only [tooDeep, reduceCtorEq, false_iff, not_and]
    omega
  · rename_i hm
    rw [Run.pure_eq_ok_iff]
    exact ⟨fun h => ⟨Nat.le_of_not_lt hm, h⟩, fun h => h.2⟩

theorem deeper_eq_ok_iff {p : Parser α} {a : α} : deeper p c = .ok a d ↔
    ∃ e, p { c with depth := c.depth + 1 } = .ok a e ∧ d = { e with depth := e.depth - 1 } := by
  unfold deeper
  cases p { c with depth := c.depth + 1 } with
  | ok b e =>
    simp only [EStateM.Result.ok.injEq]
    constructor
    · rintro ⟨rfl, rfl⟩
      exact ⟨e, ⟨rfl, rfl⟩, rfl⟩
    · rintro ⟨_, ⟨rfl, rfl⟩, rfl⟩
      exact ⟨rfl, rfl⟩
  | error f e => simp

theorem upToMark_eq_ok_iff {taken : List Char} : upToMark c = .ok taken d ↔
    '$' ∉ taken ∧ c.Past taken d ∧ ['$'] <+: d.rest := by
  have hread : ∀ front tail, '$' ∉ front → c.rest = front ++ '$' :: tail →
      upToMark c = .ok front ⟨'$' :: tail, c.offset + utf8Length front, c.depth⟩ := by
    intro front tail hm hr
    have hc : c.rest.contains '$' = true := by simp [hr]
    rw [upToMark, if_pos hc, hr, takeWhile_append_mark hm, dropWhile_append_mark hm]
  have hpast : ∀ front tail, c.rest = front ++ '$' :: tail →
      c.Past front ⟨'$' :: tail, c.offset + utf8Length front, c.depth⟩ :=
    fun _ _ hr => ⟨hr, rfl, rfl⟩
  constructor
  · intro h
    by_cases hc : '$' ∈ c.rest
    · obtain ⟨front, tail, hr, hm⟩ := List.eq_append_cons_of_mem hc
      rw [hread front tail hm hr, EStateM.Result.ok.injEq] at h
      obtain ⟨rfl, rfl⟩ := h
      exact ⟨hm, hpast front tail hr, tail, rfl⟩
    · simp [upToMark, hc] at h
  · rintro ⟨hm, hp, tail, ht⟩
    have hr : c.rest = taken ++ '$' :: tail := by
      rw [hp.rest, ← ht]
      rfl
    rw [hread taken tail hm hr, (hpast taken tail hr).unique hp]

/-- A name is taken if and only if it stands between its marks and can be read. -/
theorem nameBetween_eq_ok_iff {letter : Char} {n : SymbolName} :
    nameBetween letter c = .ok n d ↔ ∃ cs, '$' ∉ cs ∧
      SymbolName.ofMangled (String.ofList cs) = .ok n ∧
      c.Past (openMark letter ++ cs ++ closeMark letter) d := by
  simp only [nameBetween, Run.bind_eq_ok_iff, expect_eq_ok_iff, upToMark_eq_ok_iff]
  constructor
  · rintro ⟨_, e, he, cs, f, ⟨hm, hf, _⟩, _, g, hg, h⟩
    cases hn : SymbolName.ofMangled (String.ofList cs) with
    | error x =>
      rw [hn] at h
      exact absurd h Run.throw_ne_ok
    | ok m =>
      rw [hn] at h
      obtain ⟨rfl, rfl⟩ := Run.pure_eq_ok_iff.1 h
      exact ⟨cs, hm, hn, (he.trans hf).trans hg⟩
  · rintro ⟨cs, hm, hn, h⟩
    obtain ⟨f, h, hg⟩ := h.split
    obtain ⟨e, he, hf⟩ := h.split
    refine ⟨(), e, he, cs, f, ⟨hm, hf, ?_⟩, (), d, hg, ?_⟩
    · rw [hg.rest]
      exact ⟨letter :: d.rest, rfl⟩
    · rw [hn]
      exact Run.pure_eq_ok_iff.2 ⟨rfl, rfl⟩

/-- All opening marks that follow are counted, as far as 32 bits go. -/
theorem openings_eq {n turns : Nat} (hp : c.Past (repeatMark (openMark 'A') n) d)
    (hd : ¬ openMark 'A' <+: d.rest) (ht : n ≤ turns) (opened : UInt32) :
    openings turns opened c = .ok (opened + UInt32.ofNat n) d := by
  induction n generalizing turns opened c with
  | zero =>
    obtain rfl := Cursor.past_nil_iff.1 hp
    cases turns with
    | zero => exact Run.pure_eq_ok_iff.2 ⟨UInt32.add_zero _, rfl⟩
    | succ turns =>
      rw [openings, Run.bind_of_ok (eat_of_absent hd), if_neg Bool.false_ne_true]
      exact Run.pure_eq_ok_iff.2 ⟨UInt32.add_zero _, rfl⟩
  | succ n ih =>
    obtain ⟨turns, rfl⟩ := Nat.exists_eq_add_one.2 (Nat.zero_lt_of_lt ht)
    rw [repeatMark_succ] at hp
    obtain ⟨e, he, hp⟩ := hp.split
    rw [openings, Run.bind_of_ok (eat_of_past he), if_pos rfl, ih hp (Nat.le_of_succ_le_succ ht),
      Nat.add_comm n, UInt32.ofNat_add, ← UInt32.add_assoc]
    rfl

end

/-- Where no further mark follows, the marks in front of a text are as many as they are. -/
theorem repeatMark_append_inj {n m : Nat} {s t : List Char} (hs : ¬ openMark 'A' <+: s)
    (ht : ¬ openMark 'A' <+: t)
    (h : repeatMark (openMark 'A') n ++ s = repeatMark (openMark 'A') m ++ t) : n = m ∧ s = t := by
  induction n generalizing m with
  | zero =>
    cases m with
    | zero => exact ⟨rfl, h⟩
    | succ m =>
      rw [repeatMark_succ, List.append_assoc] at h
      exact absurd ⟨_, h.symm⟩ hs
  | succ n ih =>
    cases m with
    | zero =>
      rw [repeatMark_succ, List.append_assoc] at h
      exact absurd ⟨_, h⟩ ht
    | succ m =>
      rw [repeatMark_succ, repeatMark_succ, List.append_assoc, List.append_assoc] at h
      obtain ⟨rfl, rfl⟩ := ih (List.append_cancel_left h)
      exact ⟨rfl, rfl⟩

theorem exists_repeatMark (cs : List Char) : ∃ k rest,
    cs = repeatMark (openMark 'A') k ++ rest ∧ ¬ openMark 'A' <+: rest := by
  by_cases h : openMark 'A' <+: cs
  · obtain ⟨more, hm⟩ := h
    have hl : more.length < cs.length := by
      rw [← hm, List.length_append]
      exact Nat.lt_add_of_pos_left (by decide)
    obtain ⟨k, rest, hr, hn⟩ := exists_repeatMark more
    exact ⟨k + 1, rest, by rw [repeatMark_succ, List.append_assoc, ← hr, hm], hn⟩
  · exact ⟨0, cs, rfl, h⟩
termination_by cs.length

end Demangle

end NativeBridge
