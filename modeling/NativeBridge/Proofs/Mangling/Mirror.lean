import NativeBridge.Proofs.Mangling.Advance
import NativeBridge.Proofs.Mangling.Scan

/-! # Reading a text by places

A cursor stands in a text where what is ahead of it is the text from its offset on. From there the
small parsers do the same whether they have the text ahead at hand or cut it off at a place, for the
cuts are where characters start. Only the count of opening marks may get out of range where a build
checks it, if there are that many in a row.
-/
namespace NativeBridge.Demangle

variable {α β : Type} {build : Build} {text : List Char} {level : Nat} {c d : Cursor}

namespace Cursor

def place (c : Cursor) : Place := ⟨c.offset, c.depth⟩

/-- The cursor stands in a text, on a level: what is ahead is the text from its offset on. -/
structure Stands (text : List Char) (level : Nat) (c : Cursor) : Prop where
  cut : ∃ taken, text = taken ++ c.rest ∧ c.offset = utf8Length taken
  depth_eq : c.depth = level

variable {s : List Char}

theorem Stands.past (h : c.Stands text level) (hp : c.Past s d) : d.Stands text level := by
  obtain ⟨taken, htext, hoffset⟩ := h.cut
  refine ⟨⟨taken ++ s, ?_, ?_⟩, hp.depth.trans h.depth_eq⟩
  · rw [htext, hp.rest, List.append_assoc]
  · rw [hp.offset, hoffset, utf8Length_append]

theorem Stands.length_le (h : c.Stands text level) : c.rest.length ≤ text.length := by
  obtain ⟨taken, htext, _⟩ := h.cut
  rw [htext, List.length_append]
  exact Nat.le_add_left _ _

/-- A parser that advances leaves its cursor standing in the text. -/
theorem Stands.of_ok (h : c.Stands text level) {p : Parser α} (hp : Advances p) {a : α}
    (hr : p c = .ok a d) : d.Stands text level ∧ d.rest.length ≤ c.rest.length := by
  obtain ⟨s, hs⟩ := hp c
  rw [hr] at hs
  exact ⟨h.past hs, hs.length_le⟩

theorem Stands.cut?_eq (h : c.Stands text level) :
    ∃ taken, Text.cut? c.offset text = some (taken, c.rest) := by
  obtain ⟨taken, htext, hoffset⟩ := h.cut
  rw [utf8Length_eq_utf8Len] at hoffset
  exact ⟨taken, Text.cut?_eq_some_iff.2 ⟨htext, hoffset.symm⟩⟩

/-- The text is at its end where nothing is ahead. -/
theorem Stands.isEmpty_eq (h : c.Stands text level) :
    c.rest.isEmpty = decide (utf8Length text ≤ c.offset) := by
  obtain ⟨taken, htext, hoffset⟩ := h.cut
  rw [htext, utf8Length_append, hoffset, Bool.eq_iff_iff, decide_eq_true_iff, List.isEmpty_iff]
  constructor
  · intro hr
    rw [hr]
    exact le_rfl
  · intro hle
    cases hr : c.rest with
    | nil => rfl
    | cons code rest =>
      have hcode := code.utf8Size_pos
      rw [hr, utf8Length_cons] at hle
      omega

end Cursor

open Cursor

/-- A run with the text at hand as a run by places. -/
def mirrored : EStateM.Result DemangleError Cursor α → EStateM.Result Halt Place α
  | .ok a c => .ok a c.place
  | .error e c => .error (.refused e) c.place

/-- From here on the scanner does what the parser does. -/
def MirrorsAt (c : Cursor) (p : Parser α) (q : Scanner α) : Prop := q c.place = mirrored (p c)

namespace MirrorsAt

variable {p : Parser α} {q : Scanner α} {f : α → Parser β} {g : α → Scanner β}

theorem pure (a : α) : MirrorsAt c (Pure.pure a : Parser α) (Pure.pure a) := rfl

theorem throw (e : DemangleError) :
    MirrorsAt c (MonadExcept.throw e : Parser α) (MonadExcept.throw (Halt.refused e)) := rfl

theorem bind (hp : MirrorsAt c p q) (hf : ∀ a d, p c = .ok a d → MirrorsAt d (f a) (g a)) :
    MirrorsAt c (p >>= f) (q >>= g) := by
  unfold MirrorsAt at hp ⊢
  cases hr : p c with
  | ok a d =>
    rw [hr] at hp
    rw [Run.bind_of_ok hr, Run.bind_of_ok hp]
    exact hf a d hr
  | error e d =>
    rw [hr] at hp
    rw [Run.bind_eq_error_iff.2 (.inl hr), Run.bind_eq_error_iff.2 (.inl hp)]
    rfl

theorem deeper (h : MirrorsAt { c with depth := c.depth + 1 } p q) :
    MirrorsAt c (deeper p) (Scan.deeper q) := by
  have hq : q { c.place with depth := c.place.depth + 1 } =
    mirrored (p { c with depth := c.depth + 1 }) := h
  rw [MirrorsAt, Scan.deeper, hq, Demangle.deeper]
  cases p { c with depth := c.depth + 1 } <;> rfl

theorem tooDeep : MirrorsAt c (tooDeep : Parser α) Scan.tooDeep := rfl

theorem nest (child : Nat) : MirrorsAt c (nest child) (Scan.nest child) := by
  unfold Demangle.nest Scan.nest
  split
  · exact tooDeep
  · exact pure _

theorem applyAll (parsed : Parsed) (groups : List Application) :
    MirrorsAt c (applyAll parsed groups) (Scan.applyAll parsed groups) := by
  induction groups generalizing parsed c with
  | nil => exact pure _
  | cons group groups ih => exact (nest _).bind fun _ _ _ => ih _

theorem wrapLevels (dims : UInt32) (parsed : Parsed) (levels : List (List Application)) :
    MirrorsAt c (wrapLevels dims parsed levels) (Scan.wrapLevels dims parsed levels) := by
  induction levels generalizing parsed c with
  | nil => exact pure _
  | cons applied levels ih =>
    exact (nest _).bind fun _ _ _ => (applyAll _ _).bind fun _ _ _ => ih _

end MirrorsAt

/-! ## What looks at the text -/

theorem ahead_eq (h : c.Stands text level) : Scan.ahead text c.place = .ok c.rest c.place := by
  obtain ⟨taken, hcut⟩ := h.cut?_eq
  have hplace : Text.cut? c.place.pos text = some (taken, c.rest) := hcut
  rw [Scan.ahead, hplace]

theorem peek_eq (h : c.Stands text level) : Scan.peek text c.place = .ok c.rest.head? c.place := by
  rw [Scan.peek, Run.bind_of_ok (ahead_eq h)]
  rfl

namespace MirrorsAt

theorem unexpected (h : c.Stands text level) :
    MirrorsAt c (unexpected : Parser α) (Scan.unexpected text) := by
  rw [MirrorsAt, Scan.unexpected, Run.bind_of_ok (peek_eq h), Demangle.unexpected]
  cases c.rest <;> rfl

theorem atEnd (h : c.Stands text level) : MirrorsAt c atEnd (Scan.atEnd text) := by
  have hp : Scan.atEnd text c.place = .ok (decide (utf8Length text ≤ c.offset)) c.place := rfl
  rw [MirrorsAt, hp, ← h.isEmpty_eq]
  rfl

theorem eat (h : c.Stands text level) (mark : List Char) :
    MirrorsAt c (eat mark) (Scan.eat text mark) := by
  rw [MirrorsAt, Scan.eat, Run.bind_of_ok (ahead_eq h)]
  by_cases hm : mark <+: c.rest
  · obtain ⟨rest, hrest⟩ := hm
    have hp : c.Past mark ⟨rest, c.offset + utf8Length mark, c.depth⟩ := ⟨hrest.symm, rfl, rfl⟩
    rw [if_pos (List.isPrefixOf_iff_prefix.2 ⟨rest, hrest⟩), eat_of_past hp]
    rfl
  · rw [if_neg (mt List.isPrefixOf_iff_prefix.1 hm), eat_of_absent hm]
    rfl

theorem expect (h : c.Stands text level) (mark : List Char) :
    MirrorsAt c (expect mark) (Scan.expect text mark) := by
  refine (eat h mark).bind fun found d hd => ?_
  cases found with
  | true => exact pure ()
  | false =>
    obtain ⟨hfalse, _⟩ | ⟨_, rfl, _⟩ := eat_eq_ok_iff.1 hd
    · cases hfalse
    · exact unexpected h

theorem upToMark (h : c.Stands text level) : MirrorsAt c upToMark (Scan.upToMark text) := by
  rw [MirrorsAt, Scan.upToMark, Run.bind_of_ok (ahead_eq h)]
  by_cases hm : '$' ∈ c.rest
  · obtain ⟨front, tail, hr, hfront⟩ := List.eq_append_cons_of_mem hm
    have hp : c.Past front ⟨'$' :: tail, c.offset + utf8Length front, c.depth⟩ := ⟨hr, rfl, rfl⟩
    have htake := upToMark_eq_ok_iff.2 ⟨hfront, hp, tail, rfl⟩
    have hoffset : Text.offsetOf? '$' c.rest = some (utf8Length front) := by
      rw [hr, Text.offsetOf?_append hfront, utf8Length_eq_utf8Len]
    have hcut : Text.cut? (utf8Length front) c.rest = some (front, '$' :: tail) := by
      rw [hr, utf8Length_eq_utf8Len, Text.cut?_append]
    rw [hoffset, htake]
    dsimp only
    rw [Run.bind_of_ok (ahead_eq h), hcut]
    rfl
  · rw [Text.offsetOf?_eq_none hm, Demangle.upToMark, if_neg (by simpa using hm)]
    rfl

theorem nameBetween (h : c.Stands text level) (letter : Char) :
    MirrorsAt c (nameBetween letter) (Scan.nameBetween text letter) := by
  refine (expect h _).bind fun _ d hd => ?_
  have hd := h.past (expect_eq_ok_iff.1 hd)
  refine (upToMark hd).bind fun cs e he => ?_
  have he := hd.past (upToMark_eq_ok_iff.1 he).2.1
  refine (expect he _).bind fun _ f _ => ?_
  cases SymbolName.ofMangled (String.ofList cs) with
  | ok n => exact pure n
  | error e => exact throw _

theorem structType (h : c.Stands text level) (resolve : Resolver) :
    MirrorsAt c (structType resolve) (Scan.structType text resolve) := by
  refine (nameBetween h 'S').bind fun name d _ => ?_
  cases resolve name with
  | none => exact throw _
  | some fields => exact (nest _).bind fun _ _ _ => pure _

end MirrorsAt

/-! ## What is counted -/

/-- A build checks its sums, and there are too many opening marks in a row for it to count them. -/
structure Overfull (build : Build) (text : List Char) : Prop where
  build_eq : build = .checked
  marks : ∃ n, UInt32.size ≤ n ∧ repeatMark (openMark 'A') n <:+: text

theorem Overfull.size_le_length (h : Overfull build text) : 2 * UInt32.size ≤ text.length := by
  obtain ⟨n, hn, hmarks⟩ := h.marks
  have hlen := hmarks.length_le
  rw [length_repeatMark] at hlen
  exact (Nat.mul_le_mul_left 2 hn).trans hlen

/-- From here on the scanner does what the parser does, unless its count gets out of range. -/
def TracksAt (build : Build) (text : List Char) (c : Cursor) (p : Parser α) (q : Scanner α) : Prop :=
  MirrorsAt c p q ∨ Overfull build text ∧ ∃ last, q c.place = .error .overflow last

theorem MirrorsAt.tracks {p : Parser α} {q : Scanner α} (h : MirrorsAt c p q) :
    TracksAt build text c p q := .inl h

namespace TracksAt

variable {p : Parser α} {q : Scanner α} {f : α → Parser β} {g : α → Scanner β}

theorem bind (hp : TracksAt build text c p q)
    (hf : ∀ a d, p c = .ok a d → TracksAt build text d (f a) (g a)) :
    TracksAt build text c (p >>= f) (q >>= g) := by
  obtain hp | ⟨hfull, last, hrun⟩ := hp
  · cases hr : p c with
    | ok a d =>
      have hq : q c.place = .ok a d.place := by rw [hp, hr, mirrored]
      rw [TracksAt, MirrorsAt, Run.bind_of_ok hr, Run.bind_of_ok hq]
      exact hf a d hr
    | error e d => exact .inl (hp.bind fun a d hok => absurd (hr.symm.trans hok) nofun)
  · exact .inr ⟨hfull, last, Run.bind_eq_error_iff.2 (.inl hrun)⟩

theorem deeper (h : TracksAt build text { c with depth := c.depth + 1 } p q) :
    TracksAt build text c (deeper p) (Scan.deeper q) := by
  obtain h | ⟨hfull, last, hrun⟩ := h
  · exact h.deeper.tracks
  · have hq : q { c.place with depth := c.place.depth + 1 } = .error .overflow last := hrun
    refine .inr ⟨hfull, { last with depth := last.depth - 1 }, ?_⟩
    rw [Scan.deeper, hq]

/-- A check that ends the run where it fails. -/
theorem guard {b : Prop} [Decidable b] {f : Unit → Parser β} {g : Unit → Scanner β}
    (hc : c.Stands text level) (h : ¬ b → TracksAt build text c (f ()) (g ())) :
    TracksAt build text c (if b then Demangle.unexpected >>= f else f ())
      (if b then Scan.unexpected text >>= g else g ()) := by
  split
  · exact ((MirrorsAt.unexpected hc).bind fun _ _ hr => absurd hr unexpected_ne_ok).tracks
  · exact h ‹_›

end TracksAt

theorem plus_eq (build : Build) (m n : UInt32) (p : Place) : Scan.plus build m n p =
    if build = .checked ∧ UInt32.size ≤ m.toNat + n.toNat then .error .overflow p
    else .ok (m + n) p := by
  unfold Scan.plus
  split <;> rfl

theorem minus_eq {m n : UInt32} (h : n ≤ m) (p : Place) : Scan.minus build m n p = .ok (m - n) p := by
  rw [Scan.minus, if_neg fun hlt => UInt32.not_lt.2 h hlt.2]
  rfl

theorem toNat_ofNat_of_le {n : Nat} {m : UInt32} (h : n ≤ m.toNat) : (UInt32.ofNat n).toNat = n :=
  UInt32.toNat_ofNat_of_lt' (h.trans_lt m.toNat_lt)

theorem le_ofNat_iff {n : Nat} {m : UInt32} (h : n ≤ m.toNat) : m ≤ UInt32.ofNat n ↔ m.toNat ≤ n := by
  rw [UInt32.le_iff_toNat_le, toNat_ofNat_of_le h]

/-- As at least one level is closed and no more than are open, neither difference is out of range. -/
theorem outermost_eq {opened : UInt32} {closed : Nat} (hpos : 0 < closed)
    (hle : closed ≤ opened.toNat) (p : Place) : Scan.outermost build opened closed p =
      .ok (opened - (UInt32.ofNat closed - 1)) p := by
  have hcount := toNat_ofNat_of_le hle
  have hone : 1 ≤ UInt32.ofNat closed := UInt32.le_iff_toNat_le.2 (hcount.symm ▸ hpos)
  have hshared : UInt32.ofNat closed - 1 ≤ opened := by
    rw [UInt32.le_iff_toNat_le, UInt32.toNat_sub_of_le _ _ hone, hcount]
    exact (Nat.sub_le _ _).trans hle
  exact (Run.bind_of_ok (minus_eq hone p) _).trans (minus_eq hshared p)

/-- All opening marks are counted, unless the count gets out of range. -/
theorem scan_openings_eq {m n left : Nat} (hc : c.Stands text level)
    (hp : c.Past (repeatMark (openMark 'A') n) d) (hn : ¬ openMark 'A' <+: d.rest)
    (hl : c.rest.length < left) :
    Scan.openings build text left (UInt32.ofNat m) c.place =
        .ok (UInt32.ofNat (m + n)) d.place ∨
      build = .checked ∧ UInt32.size ≤ m + n ∧
        ∃ p, Scan.openings build text left (UInt32.ofNat m) c.place = .error .overflow p := by
  induction n generalizing left m c with
  | zero =>
    obtain rfl := past_nil_iff.1 hp
    obtain ⟨left, rfl⟩ := Nat.exists_eq_add_one.2 (Nat.zero_lt_of_lt hl)
    have heat : Scan.eat text (openMark 'A') d.place = .ok false d.place := by
      rw [MirrorsAt.eat hc, eat_of_absent hn, mirrored]
    left
    rw [Scan.openings, Run.bind_of_ok heat]
    rfl
  | succ n ih =>
    rw [repeatMark_succ] at hp
    obtain ⟨e, he, hp⟩ := hp.split
    obtain ⟨left, rfl⟩ := Nat.exists_eq_add_one.2 (Nat.zero_lt_of_lt hl)
    have heat : Scan.eat text (openMark 'A') c.place = .ok true e.place := by
      rw [MirrorsAt.eat hc, eat_of_past he, mirrored]
    have hlt := he.length_lt (List.cons_ne_nil _ _)
    rw [Scan.openings, Run.bind_of_ok heat, if_pos rfl]
    have hplus := plus_eq build (UInt32.ofNat m) 1 e.place
    split_ifs at hplus with hover
    · -- the count so far is at most the number of the marks
      have hle : (UInt32.ofNat m).toNat ≤ m := UInt32.toNat_ofNat'.trans_le (Nat.mod_le _ _)
      have hone : (1 : UInt32).toNat = 1 := rfl
      obtain ⟨hchecked, hsize⟩ := hover
      exact .inr ⟨hchecked, by omega, e.place, Run.bind_eq_error_iff.2 (.inl hplus)⟩
    · have hnext : UInt32.ofNat m + 1 = UInt32.ofNat (m + 1) := (UInt32.ofNat_add m 1).symm
      rw [Run.bind_of_ok hplus, hnext, Nat.add_comm n, ← Nat.add_assoc]
      exact ih (hc.past he) hp (by omega)

end NativeBridge.Demangle
