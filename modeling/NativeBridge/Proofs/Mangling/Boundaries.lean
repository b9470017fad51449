import NativeBridge.Proofs.Mangling.Mirror
import NativeBridge.Proofs.Mangling.Soundness

/-! # Demangling stays on boundaries

Read by places or with the text ahead at hand, a type comes to the same on every level. So no cut is
made but where a character starts, and no allowance is used up that exceeds the length of the text or
the number of levels that are left. All else that can end a run is the count of opening marks where a
build checks it; no other number gets out of range.
-/
namespace NativeBridge.Demangle
open Mangled Cursor

variable {build : Build} {text : List Char} {level : Nat} {c d : Cursor}

/-! ## What goes into a type -/

/-- No more levels are closed than were opened. -/
theorem length_le_of_closedLevels {inner : Parser Parsed} {limit opened : Nat}
    {acc levels : List (List Application)} (hr : closedLevels inner limit opened acc c = .ok levels d) :
    levels.length ≤ opened + acc.length := by
  induction opened generalizing acc c with
  | zero =>
    obtain ⟨rfl, _⟩ := Run.pure_eq_ok_iff.1 hr
    rw [List.length_reverse, Nat.zero_add]
  | succ opened ih =>
    obtain ⟨closed, e, _, hr⟩ := Run.bind_eq_ok_iff.1 hr
    cases closed with
    | true =>
      obtain ⟨applied, f, _, hr⟩ := Run.bind_eq_ok_iff.1 hr
      exact (ih hr).trans (by rw [List.length_cons]; omega)
    | false =>
      obtain ⟨rfl, _⟩ := Run.pure_eq_ok_iff.1 hr
      rw [List.length_reverse]
      exact Nat.le_add_left _ _

/-- The first character decides which type it is. -/
theorem scan_base_eq {resolve : Resolver} {inner : Scanner Parsed} {limit : Nat} {code : Char}
    {rest : List Char} (hc : c.Stands text level) (hr : c.rest = code :: rest) :
    Scan.base build text inner limit resolve c.place =
      if code = 'A' then
        (Scan.openings build text limit 0 >>= Scan.openedArray build text inner limit) c.place
      else if code = 'C' then
        (Scan.nameBetween text 'C' >>= fun n => pure (Ty.reference n, 1)) c.place
      else if code = 'S' then Scan.structType text resolve c.place
      else match Kind.ofCode? code with
        | some k => .ok (.builtin k, 1) ⟨c.offset + 1, c.depth⟩
        | none => Scan.unexpected text c.place := by
  rw [Scan.base, Run.bind_of_ok (peek_eq hc), hr, List.head?_cons]
  by_cases hA : code = 'A'
  · subst hA
    rfl
  by_cases hC : code = 'C'
  · subst hC
    rfl
  by_cases hS : code = 'S'
  · subst hS
    rfl
  simp only [hA, hC, hS, if_false]
  cases Kind.ofCode? code <;> rfl

/-- A parser and a scanner for the types inside: on their level they do the same, unless a count gets out
of range, and a type takes some of the text. -/
structure Inside (build : Build) (text : List Char) (level : Nat) (p : Parser Parsed)
    (q : Scanner Parsed) : Prop where
  tracks : ∀ c, c.Stands text level → TracksAt build text c p q
  advances : Advances p
  takes : ∀ c a d, p c = .ok a d → ∃ s, s ≠ [] ∧ c.Past s d

namespace Inside

variable {inner : Parser Parsed} {scanner : Scanner Parsed} {limit allowance : Nat}
  (h : Inside build text level inner scanner)
include h

theorem arguments {turns left : Nat} (hc : c.Stands text level) (ht : c.rest.length < turns)
    (hl : c.rest.length < left) (acc : List TypeArgument) (tallest : Nat) :
    TracksAt build text c (arguments inner turns acc tallest)
      (Scan.arguments text scanner left acc tallest) := by
  induction turns generalizing left acc tallest c with
  | zero => exact absurd ht (Nat.not_lt_zero _)
  | succ turns ih =>
    obtain ⟨left, rfl⟩ := Nat.exists_eq_add_one.2 (Nat.zero_lt_of_lt hl)
    refine (MirrorsAt.eat hc _).tracks.bind fun closed d hd => ?_
    obtain ⟨rfl, _⟩ | ⟨rfl, rfl, _⟩ := eat_eq_ok_iff.1 hd
    · exact (MirrorsAt.pure _).tracks
    refine (MirrorsAt.eat hc _).tracks.bind fun star e he => ?_
    -- whatever the argument is, it takes a character, as it does a turn
    obtain ⟨rfl, hpast⟩ | ⟨rfl, rfl, _⟩ := eat_eq_ok_iff.1 he
    · have hlt := hpast.length_lt (List.cons_ne_nil _ _)
      exact ih (hc.past hpast) (by omega) (by omega) _ _
    · refine (h.tracks _ hc).bind fun parsed f hf => ?_
      obtain ⟨s, hs, hpast⟩ := h.takes _ _ _ hf
      have hlt := hpast.length_lt hs
      exact ih (hc.past hpast) (by omega) (by omega) _ _

variable (hlimit : text.length < limit) (hallowance : text.length < allowance)
include hlimit hallowance

theorem applications {turns left : Nat} (hc : c.Stands text level) (ht : c.rest.length < turns)
    (hl : c.rest.length < left) (acc : List Application) :
    TracksAt build text c (applications inner limit turns acc)
      (Scan.applications text scanner allowance left acc) := by
  induction turns generalizing left acc c with
  | zero => exact absurd ht (Nat.not_lt_zero _)
  | succ turns ih =>
    obtain ⟨left, rfl⟩ := Nat.exists_eq_add_one.2 (Nat.zero_lt_of_lt hl)
    refine (MirrorsAt.eat hc _).tracks.bind fun opened d hd => ?_
    obtain ⟨rfl, hpast⟩ | ⟨rfl, rfl, _⟩ := eat_eq_ok_iff.1 hd
    · have hlt := hpast.length_lt (List.cons_ne_nil _ _)
      have hd := hc.past hpast
      have hshort := hd.length_le
      refine (h.arguments hd (by omega) (by omega) [] 0).bind fun application e he => ?_
      obtain ⟨hstands, hle⟩ := hd.of_ok (h.advances.arguments limit [] 0) he
      exact ih hstands (by omega) (by omega) _
    · exact (MirrorsAt.pure _).tracks

theorem closedLevels {still left : Nat} {opened : UInt32} {acc : List (List Application)}
    (hc : c.Stands text level) (hopened : still + acc.length = opened.toNat)
    (hl : c.rest.length < left) : TracksAt build text c (closedLevels inner limit still acc)
      (Scan.closedLevels text scanner allowance opened left acc) := by
  induction still generalizing left acc c with
  | zero =>
    obtain ⟨left, rfl⟩ := Nat.exists_eq_add_one.2 (Nat.zero_lt_of_lt hl)
    rw [Scan.closedLevels, if_pos ((le_ofNat_iff (by omega)).2 (by omega))]
    exact (MirrorsAt.pure _).tracks
  | succ still ih =>
    obtain ⟨left, rfl⟩ := Nat.exists_eq_add_one.2 (Nat.zero_lt_of_lt hl)
    rw [Scan.closedLevels, if_neg (mt (le_ofNat_iff (by omega)).1 (by omega))]
    refine (MirrorsAt.eat hc _).tracks.bind fun closed d hd => ?_
    obtain ⟨rfl, hpast⟩ | ⟨rfl, rfl, _⟩ := eat_eq_ok_iff.1 hd
    · have hlt := hpast.length_lt (List.cons_ne_nil _ _)
      have hd := hc.past hpast
      have hshort := hd.length_le
      refine (h.applications hlimit hallowance hd (by omega) (by omega) []).bind
        fun applied e he => ?_
      obtain ⟨hstands, hle⟩ := hd.of_ok (h.advances.applications limit limit []) he
      refine ih hstands ?_ (by omega)
      rw [List.length_cons]
      omega
    · exact (MirrorsAt.pure _).tracks

theorem openedArray (hc : c.Stands text level) (opened : UInt32) :
    TracksAt build text c (openedArray inner limit opened)
      (Scan.openedArray build text scanner allowance opened) := by
  unfold Demangle.openedArray Scan.openedArray
  refine .guard hc fun _ => (h.tracks c hc).bind fun element d hd => ?_
  obtain ⟨hd, _⟩ := hc.of_ok h.advances hd
  have hshort := hd.length_le
  refine (h.closedLevels hlimit hallowance hd (Nat.add_zero _) (by omega)).bind fun levels e he => ?_
  have hlen : levels.length ≤ opened.toNat := length_le_of_closedLevels he
  obtain ⟨he, _⟩ := hd.of_ok (h.advances.closedLevels limit opened.toNat []) he
  refine .guard he fun hne => ?_
  have hpos : 0 < levels.length := List.length_pos_iff.2 (mt List.isEmpty_iff.2 hne)
  have hrun : (Scan.outermost build opened levels.length >>= fun dims =>
      Scan.wrapLevels dims element levels) e.place =
      Scan.wrapLevels (opened - (UInt32.ofNat levels.length - 1)) element levels e.place :=
    Run.bind_of_ok (outermost_eq hpos hlen _) _
  exact .inl (hrun.trans (MirrorsAt.wrapLevels _ _ _))

theorem arrayType (hc : c.Stands text level) : TracksAt build text c (arrayType inner limit)
    (Scan.openings build text allowance 0 >>= Scan.openedArray build text scanner allowance) := by
  obtain ⟨n, d, hp, hn, hr⟩ := exists_arrayType_eq inner limit c
  have hshort := hc.length_le
  have hopenings : Scan.openings build text allowance 0 c.place = .ok (UInt32.ofNat (0 + n)) d.place ∨
      build = .checked ∧ UInt32.size ≤ 0 + n ∧
        ∃ last, Scan.openings build text allowance 0 c.place = .error .overflow last :=
    scan_openings_eq hc hp hn (hshort.trans_lt hallowance)
  rw [Nat.zero_add] at hopenings
  obtain hok | ⟨hbuild, hsize, last, hover⟩ := hopenings
  · rw [TracksAt, MirrorsAt, hr, Run.bind_of_ok hok]
    exact h.openedArray hlimit hallowance (hc.past hp) _
  · obtain ⟨taken, htext, _⟩ := hc.cut
    have hmarks : repeatMark (openMark 'A') n <:+: text := ⟨taken, d.rest, by
      rw [htext, hp.rest, List.append_assoc]⟩
    exact .inr ⟨⟨hbuild, n, hsize, hmarks⟩, last, Run.bind_eq_error_iff.2 (.inl hover)⟩

theorem base (hc : c.Stands text level) (resolve : Resolver) :
    TracksAt build text c (base resolve inner limit)
      (Scan.base build text scanner allowance resolve) := by
  cases hr : c.rest with
  | nil =>
    have hu := @MirrorsAt.unexpected Parsed text level c hc
    refine .inl ?_
    rw [MirrorsAt, base_eq_of_nil hr, Scan.base, Run.bind_of_ok (peek_eq hc), hr]
    exact hu
  | cons code rest =>
    rw [TracksAt, MirrorsAt, base_eq_of_rest hr, scan_base_eq hc hr]
    split_ifs
    · exact h.arrayType hlimit hallowance hc
    · exact .inl ((MirrorsAt.nameBetween hc 'C').bind fun _ _ _ => .pure _)
    · exact .inl (MirrorsAt.structType hc resolve)
    · cases Kind.ofCode? code with
      | some k => exact .inl rfl
      | none => exact .inl (MirrorsAt.unexpected hc)

theorem typeWith (hc : c.Stands text level) (resolve : Resolver) :
    TracksAt build text c (typeWith resolve inner limit)
      (Scan.typeWith build text scanner allowance resolve) := by
  refine (h.base hlimit hallowance hc resolve).bind fun generic d hd => ?_
  obtain ⟨hd, _⟩ := hc.of_ok (h.advances.base limit resolve) hd
  have hshort := hd.length_le
  refine (h.applications hlimit hallowance hd (by omega) (by omega) []).bind fun applied _ _ => ?_
  exact (MirrorsAt.applyAll _ _).tracks

end Inside

/-! ## Types on every level -/

variable {resolve : Resolver} {limit allowance calls : Nat}

theorem scan_type_eq {p : Place} : Scan.type build text resolve allowance (calls + 1) p =
    if maxNesting ≤ p.depth then Scan.tooDeep p
    else Scan.deeper
      (Scan.typeWith build text (Scan.type build text resolve allowance calls) allowance resolve) p := by
  have hget : (get : Scanner Place) p = .ok p p := rfl
  rw [Scan.type, Run.bind_of_ok hget]
  split <;> rfl

/-- A type takes the text that the grammar has for it, which is never empty. -/
theorem takes_typeWithin {budget : Nat} {a : Parsed} (hr : typeWithin resolve limit budget c = .ok a d) :
    ∃ s, s ≠ [] ∧ c.Past s d := by
  obtain ⟨_, _, s, hs, hp⟩ := sound_typeWithin resolve limit budget c d a.1 a.2 hr
  exact ⟨s, (opens_within resolve budget s a.1 hs).ne_nil, hp⟩

section
variable (hlimit : text.length < limit) (hallowance : text.length < allowance)
include hlimit hallowance

/-- One more call than there are levels left is enough. -/
theorem inside_typeWithin {budget : Nat} (hlevel : level + budget = maxNesting)
    (hcalls : budget < calls) : Inside build text level (typeWithin resolve limit budget)
      (Scan.type build text resolve allowance calls) := by
  induction budget generalizing level calls with
  | zero =>
    obtain ⟨calls, rfl⟩ := Nat.exists_eq_add_one.2 (Nat.zero_lt_of_lt hcalls)
    refine ⟨fun c hc => ?_, Advances.typeWithin limit resolve 0, fun _ _ _ => takes_typeWithin⟩
    have hdeep : maxNesting ≤ c.place.depth := (hlevel.symm.trans hc.depth_eq.symm).le
    refine .inl ?_
    rw [MirrorsAt, scan_type_eq, if_pos hdeep]
    rfl
  | succ budget ih =>
    -- one level further down there is one level less, and one call less
    obtain ⟨calls, rfl⟩ := Nat.exists_eq_add_one.2 (Nat.zero_lt_of_lt hcalls)
    refine ⟨fun c hc => ?_, Advances.typeWithin limit resolve _, fun _ _ _ => takes_typeWithin⟩
    have hroom : ¬ maxNesting ≤ c.place.depth := by
      have hdepth : c.place.depth = level := hc.depth_eq
      omega
    have hinside : Inside build text (level + 1) (typeWithin resolve limit budget)
        (Scan.type build text resolve allowance calls) := ih (by omega) (by omega)
    have hdown : Stands text (level + 1) { c with depth := c.depth + 1 } :=
      ⟨hc.cut, congrArg (· + 1) hc.depth_eq⟩
    rw [TracksAt, MirrorsAt, scan_type_eq, if_neg hroom]
    exact (hinside.typeWith hlimit hallowance hdown resolve).deeper

theorem tracks_type (hc : c.Stands text level) (hlevel : level ≤ maxNesting)
    (hcalls : maxNesting < level + calls) :
    TracksAt build text c (type resolve limit) (Scan.type build text resolve allowance calls) := by
  have hbudget : level + (maxNesting - level) = maxNesting := Nat.add_sub_cancel' hlevel
  have hcalls : maxNesting - level < calls := by omega
  rw [TracksAt, MirrorsAt, type, hc.depth_eq]
  exact (inside_typeWithin hlimit hallowance hbudget hcalls).tracks c hc

theorem tracks_types {turns left : Nat} (hc : c.Stands text 0) (ht : c.rest.length < turns)
    (hl : c.rest.length < left) (hcalls : maxNesting < calls) (acc : List Ty) :
    TracksAt build text c (types resolve limit turns acc)
      (Scan.types build text resolve allowance calls left acc) := by
  induction turns generalizing left acc c with
  | zero => exact absurd ht (Nat.not_lt_zero _)
  | succ turns ih =>
    obtain ⟨left, rfl⟩ := Nat.exists_eq_add_one.2 (Nat.zero_lt_of_lt hl)
    refine (MirrorsAt.atEnd hc).tracks.bind fun ended d hd => ?_
    obtain ⟨_, rfl⟩ := atEnd_eq_ok_iff.1 hd
    cases ended with
    | true => exact (MirrorsAt.pure _).tracks
    | false =>
      have hroom : maxNesting < 0 + calls := by omega
      refine (tracks_type hlimit hallowance hc (Nat.zero_le _) hroom).bind fun parsed e he => ?_
      obtain ⟨s, hs, hp⟩ := takes_typeWithin he
      have hlt := hp.length_lt hs
      exact ih (hc.past hp) (by omega) (by omega) _

end

theorem MirrorsAt.finish (hc : c.Stands text level) : MirrorsAt c finish (Scan.finish text) := by
  have hend : Scan.atEnd text c.place = .ok c.rest.isEmpty c.place := MirrorsAt.atEnd hc
  rw [MirrorsAt, Scan.finish, Run.bind_of_ok hend, Demangle.finish]
  cases c.rest.isEmpty <;> rfl

/-- A whole text is read by places as it is read with the text ahead at hand. -/
theorem run_tracked {α : Type} {p : Parser α} {q : Scanner α}
    (h : TracksAt build text ⟨text, 0, 0⟩ p q) :
    Scan.run q = (run p text).mapError .refused ∨
      Overfull build text ∧ Scan.run q = .error .overflow := by
  obtain h | ⟨hfull, last, hover⟩ := h
  · have hq : q ⟨0, 0⟩ = mirrored (p ⟨text, 0, 0⟩) := h
    left
    rw [Scan.run, hq, run]
    cases p ⟨text, 0, 0⟩ <;> rfl
  · have hq : q ⟨0, 0⟩ = .error .overflow last := hover
    exact .inr ⟨hfull, by rw [Scan.run, hq]⟩

theorem stands_start (text : List Char) : Stands text 0 ⟨text, 0, 0⟩ := ⟨⟨[], rfl, rfl⟩, rfl⟩

section
variable {input : String} (hallowance : input.toList.length < allowance) (hcalls : maxNesting < calls)
include hallowance hcalls

theorem scan_eq (build : Build) : scan build input.toList resolve allowance calls =
      (demangle input resolve).mapError .refused ∨
    Overfull build input.toList ∧
      scan build input.toList resolve allowance calls = .error .overflow := by
  have hc := stands_start input.toList
  have hroom : maxNesting < 0 + calls := by omega
  refine run_tracked ((tracks_type (Nat.lt_succ_self _) hallowance hc (Nat.zero_le _) hroom).bind
    fun parsed d hd => ?_)
  obtain ⟨hd, _⟩ := hc.of_ok (Advances.type _ resolve) hd
  exact ((MirrorsAt.finish hd).bind fun _ _ _ => .pure _).tracks

theorem scanList_eq (build : Build) : scanList build input.toList resolve allowance calls =
      (demangleList input resolve).mapError .refused ∨
    Overfull build input.toList ∧
      scanList build input.toList resolve allowance calls = .error .overflow :=
  run_tracked (tracks_types (Nat.lt_succ_self _) hallowance (stands_start input.toList)
    (Nat.lt_succ_self _) hallowance hcalls [])

end

/-! ## Places in a text -/

/-- A place that a run from `p` may come to: further on, on a boundary of the text and no deeper. -/
structure Place.Onward (input : String) (p q : Place) : Prop where
  depth_eq : q.depth = p.depth
  isValid : (⟨q.pos⟩ : String.Pos.Raw).IsValid input
  le : p.pos ≤ q.pos
  le_size : q.pos ≤ input.utf8ByteSize

/-- A type is read with its height, or the text is refused, in either case at a place further on. -/
inductive Settles (input : String) (p : Place) : EStateM.Result Halt Place Parsed → Prop
  | read {t : Ty} {q : Place} (onward : p.Onward input q) (further : p.pos < q.pos)
      (height_le : t.height ≤ maxNesting) : Settles input p (.ok (t, t.height) q)
  | refused {cause : DemangleError} {q : Place} (onward : p.Onward input q) :
      Settles input p (.error (.refused cause) q)

variable {input : String}

theorem exists_stands {p : Place} (h : (⟨p.pos⟩ : String.Pos.Raw).IsValid input) :
    ∃ c : Cursor, c.Stands input.toList p.depth ∧ c.place = p := by
  obtain ⟨⟨front, back⟩, hcut⟩ := Option.isSome_iff_exists.1 (Text.isSome_cut?_iff.2 h)
  obtain ⟨htext, hpos⟩ := Text.cut?_eq_some_iff.1 hcut
  rw [← utf8Length_eq_utf8Len] at hpos
  exact ⟨⟨back, p.pos, p.depth⟩, ⟨⟨front, htext, hpos.symm⟩, rfl⟩, rfl⟩

theorem Cursor.Stands.onward {s : List Char} (hc : c.Stands input.toList level) (hp : c.Past s d) :
    c.place.Onward input d.place := by
  have hd := hc.past hp
  obtain ⟨taken, hcut⟩ := hd.cut?_eq
  obtain ⟨front, htext, hoffset⟩ := hd.cut
  refine ⟨hp.depth, Text.isSome_cut?_iff.1 (Option.isSome_of_eq_some hcut), ?_, ?_⟩
  · exact (Nat.le_add_right _ _).trans hp.offset.ge
  · change d.offset ≤ _
    rw [hoffset, ← utf8Length_toList, htext, utf8Length_append]
    exact Nat.le_add_right _ _

theorem settles_type (hc : c.Stands input.toList level) :
    Settles input c.place (mirrored (type resolve limit c)) := by
  cases hr : type resolve limit c with
  | ok parsed d =>
    obtain ⟨t, height⟩ := parsed
    obtain ⟨rfl, hheight, _⟩ := sound_typeWithin resolve limit _ c d t height hr
    obtain ⟨s, hs, hp⟩ := takes_typeWithin hr
    have hpos := (List.length_pos_of_ne_nil hs).trans_le (length_le_utf8Length s)
    have hfurther : c.offset < d.offset := by
      rw [hp.offset]
      exact Nat.lt_add_of_pos_right hpos
    exact .read (hc.onward hp) hfurther hheight
  | error e d =>
    obtain ⟨s, hp⟩ := Advances.type limit resolve c
    rw [hr] at hp
    exact .refused (hc.onward hp)

/-- From every boundary of a text and on every level a type is read, with its height, or refused, and
the place that is left is further on, on a boundary and on the same level. This takes no more turns of
a loop than the text has characters, and one, and no more calls in each other than there are levels
left, and one, which ends at once. So read by places the texts are what they are with the text ahead at
hand. Where sums are checked a run may end in the count of the opening marks of an array too, but only
in a text with more of them in a row than can be counted; where they are not the count goes round, and
nothing else ends a run. -/
theorem type_settles (build : Build) (input : String) (resolve : Resolver) (p : Place)
    (hpos : (⟨p.pos⟩ : String.Pos.Raw).IsValid input) (hdepth : p.depth ≤ maxNesting) :
    let text := input.toList
    (∀ limit calls, text.length < limit → maxNesting < p.depth + calls →
      let r := Scan.type build text resolve limit calls p
      Settles input p r ∨ Overfull build text ∧ ∃ last, r = .error .overflow last) ∧
    (∀ limit calls q, maxNesting ≤ q.depth → Scan.type build text resolve limit (calls + 1) q =
      .error (.refused (.nestingTooDeep q.pos)) q) ∧
    (∃ c : Cursor, c.Stands text p.depth ∧ c.place = p ∧
      ∀ limit calls, text.length < limit → maxNesting < p.depth + calls →
        TracksAt build text c (type resolve (limitFor text))
          (Scan.type build text resolve limit calls)) ∧
    ∀ limit calls, text.length < limit → maxNesting < calls →
      (scan build text resolve limit calls = (demangle input resolve).mapError .refused ∨
        Overfull build text ∧ scan build text resolve limit calls = .error .overflow) ∧
      (scanList build text resolve limit calls = (demangleList input resolve).mapError .refused ∨
        Overfull build text ∧ scanList build text resolve limit calls = .error .overflow) := by
  intro text
  obtain ⟨c, hc, rfl⟩ := exists_stands hpos
  have htracks : ∀ limit calls, text.length < limit → maxNesting < c.place.depth + calls →
      TracksAt build text c (type resolve (limitFor text))
        (Scan.type build text resolve limit calls) :=
    fun _ _ hlimit hcalls => tracks_type (Nat.lt_succ_self _) hlimit hc hdepth hcalls
  refine ⟨fun limit calls hlimit hcalls => ?_, fun limit calls q hq => ?_, ⟨c, hc, rfl, htracks⟩,
    fun _ _ hlimit hcalls => ⟨scan_eq hlimit hcalls build, scanList_eq hlimit hcalls build⟩⟩
  · refine (htracks limit calls hlimit hcalls).imp_left fun hmirrors => ?_
    rw [hmirrors]
    exact settles_type hc
  · rw [scan_type_eq, if_pos hq]
    rfl

/-- Behind a letter of two bytes, an applied array fits below three levels and not below two; no
allowance is left over. -/
theorem type_settles_behind_letter :
    let input := "éA$dT$_b$T$A"
    (⟨2⟩ : String.Pos.Raw).IsValid input ∧ 253 + 3 = maxNesting ∧
      Settles input ⟨2, 253⟩ (Scan.type .unchecked input.toList (fun _ => none) 13 4 ⟨2, 253⟩) ∧
      Scan.type .unchecked input.toList (fun _ => none) 13 4 ⟨2, 253⟩ =
        .ok (.array (.cone (.builtin .int) [.star, .concrete (.builtin .byte)]) 1, 3) ⟨13, 253⟩ ∧
      Settles input ⟨2, 254⟩ (Scan.type .checked input.toList (fun _ => none) 13 3 ⟨2, 254⟩) ∧
      Scan.type .checked input.toList (fun _ => none) 13 3 ⟨2, 254⟩ =
        .error (.refused (.nestingTooDeep 8)) ⟨8, 254⟩ := by
  have hcut : (Text.cut? 2 "éA$dT$_b$T$A".toList).isSome = true := rfl
  have hread : Scan.type .unchecked "éA$dT$_b$T$A".toList (fun _ => none) 13 4 ⟨2, 253⟩ =
    .ok (.array (.cone (.builtin .int) [.star, .concrete (.builtin .byte)]) 1, 3) ⟨13, 253⟩ := rfl
  have hrefused : Scan.type .checked "éA$dT$_b$T$A".toList (fun _ => none) 13 3 ⟨2, 254⟩ =
    .error (.refused (.nestingTooDeep 8)) ⟨8, 254⟩ := rfl
  intro input
  have hvalid : (⟨2⟩ : String.Pos.Raw).IsValid input := Text.isSome_cut?_iff.1 hcut
  have hshort {build : Build} : ¬ Overfull build input.toList :=
    fun hfull => absurd hfull.size_le_length (by decide)
  have hthree := type_settles .unchecked input (fun _ => none) ⟨2, 253⟩ hvalid (by decide)
  have htwo := type_settles .checked input (fun _ => none) ⟨2, 254⟩ hvalid (by decide)
  exact ⟨hvalid, rfl,
    (hthree.1 13 4 (by decide) (by decide)).resolve_right fun hover => hshort hover.1, hread,
    (htwo.1 13 3 (by decide) (by decide)).resolve_right fun hover => hshort hover.1, hrefused⟩

end NativeBridge.Demangle
