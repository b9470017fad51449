import NativeBridge.Proofs.Mangling.Derivation

/-! # The grammar of mangled types is unambiguous

A text determines its derivation. Where a part of a derivation ends is seen from what follows it,
and what follows a part is never what could go on with it, so two derivations of one text have the
same parts from the first to the last.
-/
namespace NativeBridge

namespace Mangled
open Demangle

section
variable {resolve : Resolver}

theorem Derivation.opening {d : Derivation} {t : Ty} (h : d.type? resolve = some t) :
    Opening d.text := opens_within resolve _ _ _ (d.within h le_rfl)

/-- The letter that a text begins with tells how it is derived. -/
def Derivation.first : Derivation → Char
  | .letter k _ => k.code
  | .reference _ _ => 'C'
  | .struct _ _ => 'S'
  | .array _ _ _ => 'A'

theorem Derivation.exists_text_eq {d : Derivation} {t : Ty} (h : d.type? resolve = some t) :
    ∃ more, d.text = d.first :: more := by
  cases d with
  | letter k as => exact ⟨_, rfl⟩
  | reference cs as => exact ⟨_, rfl⟩
  | struct cs as => exact ⟨_, rfl⟩
  | array n d ls =>
    obtain ⟨more, hmore⟩ := openArray_text h rfl
    exact ⟨_, hmore.symm⟩

theorem Derivation.first_eq {d e : Derivation} {t u : Ty} {rest tail : List Char}
    (hd : d.type? resolve = some t) (he : e.type? resolve = some u)
    (h : d.text ++ rest = e.text ++ tail) : d.first = e.first := by
  obtain ⟨more, hmore⟩ := Derivation.exists_text_eq hd
  obtain ⟨others, hothers⟩ := Derivation.exists_text_eq he
  rw [hmore, hothers] at h
  exact List.head_eq_of_cons_eq h

/-- The letters of kinds are in no mark. -/
theorem code_ne (k : Kind) : k.code ≠ 'A' ∧ k.code ≠ 'C' ∧ k.code ≠ 'S' := by
  cases k <;> decide

theorem code_injective {k l : Kind} (h : k.code = l.code) : k = l := by
  have hc := congrArg Kind.ofCode? h
  rwa [Kind.ofCode?_code, Kind.ofCode?_code, Option.some_inj] at hc

/-- A name is determined by the text that it starts. -/
theorem name_append_inj {letter : Char} {cs ds : List Char} {n m : SymbolName}
    (hc : nameOf? cs = some n) (hd : nameOf? ds = some m) {rest tail : List Char}
    (h : openMark letter ++ cs ++ closeMark letter ++ rest =
      openMark letter ++ ds ++ closeMark letter ++ tail) : cs = ds ∧ rest = tail := by
  have hc := (nameOf?_eq_some_iff.1 hc).1
  have hd := (nameOf?_eq_some_iff.1 hd).1
  simp only [openMark, closeMark, List.cons_append, List.nil_append, List.append_assoc,
    List.cons.injEq, true_and] at h
  have hcs := congrArg (List.takeWhile (· ≠ '$')) h
  rw [takeWhile_append_mark hc, takeWhile_append_mark hd] at hcs
  subst hcs
  simpa using List.append_cancel_left h

/-- No application stands where a level closes. -/
theorem not_openMark_levels_text (ls : Levels) (rest : List Char) :
    ¬ openMark 'T' <+: ls.text ++ rest := by
  cases ls <;> simp [Levels.text, openMark, closeMark]

theorem closeMark_levels_text (ls : Levels) (rest : List Char) :
    closeMark 'A' <+: ls.text ++ rest := by
  cases ls <;> simp [Levels.text, closeMark]

mutual

theorem Derivation.text_append_inj : ∀ (d e : Derivation) {t u : Ty} {rest tail : List Char},
    d.type? resolve = some t → e.type? resolve = some u → Ends d.text rest → Ends e.text tail →
      d.text ++ rest = e.text ++ tail → d = e ∧ rest = tail
  | .letter k as, e, t, u, rest, tail, hd, he, hr, ht, h => by
    have hfirst := Derivation.first_eq hd he h
    obtain ⟨hA, hC, hS⟩ := code_ne k
    cases e with
    | letter l bs =>
      obtain rfl : k = l := code_injective hfirst
      have hs : as.text ++ rest = bs.text ++ tail := List.tail_eq_of_cons_eq h
      obtain ⟨hs, htail⟩ := as.text_append_inj bs hd he hr.1 ht.1 hs
      exact ⟨by rw [hs], htail⟩
    | reference ds bs => exact absurd hfirst hC
    | struct ds bs => exact absurd hfirst hS
    | array m e ms => exact absurd hfirst hA
  | .reference cs as, e, t, u, rest, tail, hd, he, hr, ht, h => by
    have hfirst := Derivation.first_eq hd he h
    cases e with
    | letter l bs => exact absurd hfirst.symm (code_ne l).2.1
    | reference ds bs =>
      obtain ⟨n, hn, hd⟩ := Option.bind_eq_some_iff.1 hd
      obtain ⟨m, hm, he⟩ := Option.bind_eq_some_iff.1 he
      simp only [Derivation.text, List.append_assoc _ _ rest, List.append_assoc _ _ tail] at h
      obtain ⟨hcs, hs⟩ := name_append_inj hn hm h
      obtain ⟨hs, htail⟩ := as.text_append_inj bs hd he hr.1 ht.1 hs
      exact ⟨by rw [hcs, hs], htail⟩
    | struct ds bs => exact absurd hfirst (show 'C' ≠ 'S' by decide)
    | array m e ms => exact absurd hfirst (show 'C' ≠ 'A' by decide)
  | .struct cs as, e, t, u, rest, tail, hd, he, hr, ht, h => by
    have hfirst := Derivation.first_eq hd he h
    cases e with
    | letter l bs => exact absurd hfirst.symm (code_ne l).2.2
    | reference ds bs => exact absurd hfirst (show 'S' ≠ 'C' by decide)
    | struct ds bs =>
      obtain ⟨n, hn, hd⟩ := Option.bind_eq_some_iff.1 hd
      obtain ⟨fs, _, hd⟩ := Option.bind_eq_some_iff.1 hd
      obtain ⟨m, hm, he⟩ := Option.bind_eq_some_iff.1 he
      obtain ⟨gs, _, he⟩ := Option.bind_eq_some_iff.1 he
      simp only [Derivation.text, List.append_assoc _ _ rest, List.append_assoc _ _ tail] at h
      obtain ⟨hcs, hs⟩ := name_append_inj hn hm h
      obtain ⟨hs, htail⟩ := as.text_append_inj bs hd he hr.1 ht.1 hs
      exact ⟨by rw [hcs, hs], htail⟩
    | array m e ms => exact absurd hfirst (show 'S' ≠ 'A' by decide)
  | .array n d ls, e, t, u, rest, tail, hd, he, hr, ht, h => by
    have hfirst := Derivation.first_eq hd he h
    have hopen := openArray_text hd rfl
    cases e with
    | letter l bs => exact absurd hfirst.symm (code_ne l).1
    | reference ds bs => exact absurd hfirst (show 'A' ≠ 'C' by decide)
    | struct ds bs => exact absurd hfirst (show 'A' ≠ 'S' by decide)
    | array m e ms =>
      have hopen' := openArray_text he rfl
      obtain ⟨ha, _, v, dims, hv, _, hl⟩ := type?_array_eq_some_iff.1 hd
      obtain ⟨hb, _, w, dims', hw, _, hm⟩ := type?_array_eq_some_iff.1 he
      have hA := not_openArray_text ha
      have hB := not_openArray_text hb
      simp only [Derivation.text, List.append_assoc] at h
      -- no element opens an array, so the opening marks of both texts are the same
      obtain ⟨hnm, hs⟩ := repeatMark_append_inj ((Derivation.opening hv).not_openArray hA _)
        ((Derivation.opening hw).not_openArray hB _) h
      have hends : Ends d.text (ls.text ++ rest) :=
        ⟨not_openMark_levels_text ls rest, fun h => absurd h hA⟩
      have hends' : Ends e.text (ms.text ++ tail) :=
        ⟨not_openMark_levels_text ms tail, fun h => absurd h hB⟩
      obtain ⟨hde, hs⟩ := d.text_append_inj e hv hw hends hends' hs
      obtain ⟨hlm, htail⟩ := ls.text_append_inj ms hl hm hr.1 (hr.2 hopen) ht.1 (ht.2 hopen') hs
      exact ⟨by rw [hnm, hde, hlm], htail⟩
termination_by structural d => d

theorem Applications.text_append_inj : ∀ (as bs : Applications) {t t' u u' : Ty}
    {rest tail : List Char}, as.appliedTo? resolve t = some u → bs.appliedTo? resolve t' = some u' →
      ¬ openMark 'T' <+: rest → ¬ openMark 'T' <+: tail → as.text ++ rest = bs.text ++ tail →
        as = bs ∧ rest = tail
  | .none, .none, t, t', u, u', rest, tail, _, _, _, _, h => ⟨rfl, h⟩
  | .none, .more args bs, t, t', u, u', rest, tail, _, _, hr, _, h => by
    refine absurd ?_ hr
    simp only [Applications.text, List.nil_append, List.append_assoc] at h
    exact ⟨_, h.symm⟩
  | .more args as, .none, t, t', u, u', rest, tail, _, _, _, ht, h => by
    refine absurd ?_ ht
    simp only [Applications.text, List.nil_append, List.append_assoc] at h
    exact ⟨_, h⟩
  | .more args as, .more args' bs, t, t', u, u', rest, tail, ha, hb, hr, ht, h => by
    obtain ⟨ts, hts, ha⟩ := Option.bind_eq_some_iff.1 ha
    obtain ⟨us, hus, hb⟩ := Option.bind_eq_some_iff.1 hb
    simp only [Applications.text, List.append_assoc] at h
    obtain ⟨hargs, hs⟩ := args.text_append_inj args' hts hus (List.append_cancel_left h)
    obtain ⟨has, htail⟩ := as.text_append_inj bs ha hb hr ht hs
    exact ⟨by rw [hargs, has], htail⟩
termination_by structural d => d

theorem Arguments.text_append_inj : ∀ (args args' : Arguments) {ts us : List TypeArgument}
    {rest tail : List Char}, args.types? resolve = some ts → args'.types? resolve = some us →
      args.text ++ (closeMark 'T' ++ rest) = args'.text ++ (closeMark 'T' ++ tail) →
        args = args' ∧ rest = tail
  | .none, .none, ts, us, rest, tail, _, _, h => ⟨rfl, List.append_cancel_left h⟩
  | .none, .star args', ts, us, rest, tail, _, _, h => by
    exact absurd (List.head_eq_of_cons_eq h) (by decide)
  | .none, .type e args', ts, us, rest, tail, _, hu, h => by
    obtain ⟨u, he, _⟩ := Option.bind_eq_some_iff.1 hu
    rw [Arguments.text.eq_3, List.append_assoc] at h
    exact absurd ⟨rest, h⟩ ((Derivation.opening he).not_closeMark 'T' _)
  | .star args, .none, ts, us, rest, tail, _, _, h => by
    exact absurd (List.head_eq_of_cons_eq h) (by decide)
  | .star args, .star args', ts, us, rest, tail, ht, hu, h => by
    obtain ⟨_, ht, _⟩ := Option.bind_eq_some_iff.1 ht
    obtain ⟨_, hu, _⟩ := Option.bind_eq_some_iff.1 hu
    obtain ⟨hargs, htail⟩ := args.text_append_inj args' ht hu (List.tail_eq_of_cons_eq h)
    exact ⟨by rw [hargs], htail⟩
  | .star args, .type e args', ts, us, rest, tail, _, hu, h => by
    obtain ⟨u, he, _⟩ := Option.bind_eq_some_iff.1 hu
    rw [Arguments.text.eq_3, List.append_assoc] at h
    exact absurd ⟨_, h⟩ ((Derivation.opening he).not_star _)
  | .type d args, .none, ts, us, rest, tail, ht, _, h => by
    obtain ⟨t, hd, _⟩ := Option.bind_eq_some_iff.1 ht
    rw [Arguments.text.eq_3, List.append_assoc] at h
    exact absurd ⟨tail, h.symm⟩ ((Derivation.opening hd).not_closeMark 'T' _)
  | .type d args, .star args', ts, us, rest, tail, ht, _, h => by
    obtain ⟨t, hd, _⟩ := Option.bind_eq_some_iff.1 ht
    rw [Arguments.text.eq_3, List.append_assoc] at h
    exact absurd ⟨_, h.symm⟩ ((Derivation.opening hd).not_star _)
  | .type d args, .type e args', ts, us, rest, tail, ht, hu, h => by
    obtain ⟨t, hd, ht⟩ := Option.bind_eq_some_iff.1 ht
    obtain ⟨u, he, hu⟩ := Option.bind_eq_some_iff.1 hu
    obtain ⟨ts, ht, _⟩ := Option.bind_eq_some_iff.1 ht
    obtain ⟨us, hu, _⟩ := Option.bind_eq_some_iff.1 hu
    have hends : Ends d.text (args.text ++ (closeMark 'T' ++ rest)) :=
      ends_arguments (opens_within resolve _) (args.items ht le_rfl) d.text
    have hends' : Ends e.text (args'.text ++ (closeMark 'T' ++ tail)) :=
      ends_arguments (opens_within resolve _) (args'.items hu le_rfl) e.text
    simp only [Arguments.text, List.append_assoc] at h
    obtain ⟨hde, hs⟩ := d.text_append_inj e hd he hends hends' h
    obtain ⟨hargs, htail⟩ := args.text_append_inj args' ht hu hs
    exact ⟨by rw [hde, hargs], htail⟩
termination_by structural d => d

theorem Levels.text_append_inj : ∀ (ls ms : Levels) {dims dims' : UInt32} {t t' u u' : Ty}
    {rest tail : List Char}, ls.around? resolve dims t = some u →
      ms.around? resolve dims' t' = some u' → ¬ openMark 'T' <+: rest → ¬ closeMark 'A' <+: rest →
        ¬ openMark 'T' <+: tail → ¬ closeMark 'A' <+: tail → ls.text ++ rest = ms.text ++ tail →
          ls = ms ∧ rest = tail
  | .last as, .last bs, _, _, t, t', u, u', rest, tail, hl, hm, hr, _, ht, _, h => by
    simp only [Levels.text, List.append_assoc] at h
    obtain ⟨has, htail⟩ := as.text_append_inj bs hl hm hr ht (List.append_cancel_left h)
    exact ⟨by rw [has], htail⟩
  | .last as, .more bs ms, _, _, t, t', u, u', rest, tail, hl, hm, hr, hr', _, _, h => by
    obtain ⟨v, hm, _⟩ := Option.bind_eq_some_iff.1 hm
    simp only [Levels.text, List.append_assoc] at h
    obtain ⟨_, htail⟩ := as.text_append_inj bs hl hm hr (not_openMark_levels_text ms tail)
      (List.append_cancel_left h)
    exact absurd (htail ▸ closeMark_levels_text ms tail) hr'
  | .more as ls, .last bs, _, _, t, t', u, u', rest, tail, hl, hm, _, _, ht, ht', h => by
    obtain ⟨v, hl, _⟩ := Option.bind_eq_some_iff.1 hl
    simp only [Levels.text, List.append_assoc] at h
    obtain ⟨_, htail⟩ := as.text_append_inj bs hl hm (not_openMark_levels_text ls rest) ht
      (List.append_cancel_left h)
    exact absurd (htail ▸ closeMark_levels_text ls rest) ht'
  | .more as ls, .more bs ms, _, _, t, t', u, u', rest, tail, hl, hm, hr, hr', ht, ht', h => by
    obtain ⟨v, hv, hl⟩ := Option.bind_eq_some_iff.1 hl
    obtain ⟨w, hw, hm⟩ := Option.bind_eq_some_iff.1 hm
    simp only [Levels.text, List.append_assoc] at h
    obtain ⟨has, hs⟩ := as.text_append_inj bs hv hw (not_openMark_levels_text ls rest)
      (not_openMark_levels_text ms tail) (List.append_cancel_left h)
    obtain ⟨hls, htail⟩ := ls.text_append_inj ms hl hm hr hr' ht ht' hs
    exact ⟨by rw [has, hls], htail⟩
termination_by structural d => d

end

/-- Derivations one behind the other make a text and describe a list of types. -/
structure Derives (resolve : Resolver) (ds : List Derivation) (cs : List Char) (ts : List Ty) :
    Prop where
  text : ds.flatMap Derivation.text = cs
  types : ds.map (Derivation.type? resolve) = ts.map some

theorem derives_nil_iff {ts : List Ty} {cs : List Char} :
    Derives resolve [] cs ts ↔ cs = [] ∧ ts = [] := by
  constructor
  · intro h
    exact ⟨h.text.symm, List.map_eq_nil_iff.1 h.types.symm⟩
  · rintro ⟨rfl, rfl⟩
    exact ⟨rfl, rfl⟩

theorem derives_cons_iff {d : Derivation} {ds : List Derivation} {cs : List Char} {ts : List Ty} :
    Derives resolve (d :: ds) cs ts ↔ ∃ t us rest, d.type? resolve = some t ∧
      Derives resolve ds rest us ∧ cs = d.text ++ rest ∧ ts = t :: us := by
  constructor
  · rintro ⟨rfl, h⟩
    rw [List.map_cons, eq_comm, List.map_eq_cons_iff] at h
    obtain ⟨t, us, rfl, ht, hus⟩ := h
    exact ⟨t, us, _, ht.symm, ⟨rfl, hus.symm⟩, by rw [List.flatMap_cons], rfl⟩
  · rintro ⟨t, us, rest, ht, ⟨rfl, hus⟩, rfl, rfl⟩
    exact ⟨by rw [List.flatMap_cons], by rw [List.map_cons, List.map_cons, ht, hus]⟩

/-- Nothing that could go on with a type follows it in a row of types. -/
theorem Derives.ends {ds : List Derivation} {rest : List Char} {ts : List Ty}
    (h : Derives resolve ds rest ts) (s : List Char) : Ends s rest := by
  cases ds with
  | nil =>
    obtain ⟨rfl, _⟩ := derives_nil_iff.1 h
    simp [Ends, openMark, closeMark]
  | cons d ds =>
    obtain ⟨t, us, tail, ht, _, rfl, _⟩ := derives_cons_iff.1 h
    have ho := Derivation.opening ht
    exact ⟨ho.not_openMark _, fun _ => ho.not_closeMark _ _⟩

theorem Derives.unique {ds es : List Derivation} {cs : List Char} {ts us : List Ty}
    (h : Derives resolve ds cs ts) (k : Derives resolve es cs us) : ds = es ∧ ts = us := by
  induction ds generalizing es cs ts us with
  | nil =>
    obtain ⟨rfl, rfl⟩ := derives_nil_iff.1 h
    cases es with
    | nil => exact ⟨rfl, (derives_nil_iff.1 k).2.symm⟩
    | cons e es =>
      obtain ⟨u, vs, tail, hu, _, he, _⟩ := derives_cons_iff.1 k
      have hs := List.append_eq_nil_iff.1 he.symm
      exact absurd hs.1 (Derivation.opening hu).ne_nil
  | cons d ds ih =>
    obtain ⟨t, vs, rest, ht, hd, rfl, rfl⟩ := derives_cons_iff.1 h
    cases es with
    | nil =>
      have hs := List.append_eq_nil_iff.1 (derives_nil_iff.1 k).1
      exact absurd hs.1 (Derivation.opening ht).ne_nil
    | cons e es =>
      obtain ⟨u, ws, tail, hu, he, hs, rfl⟩ := derives_cons_iff.1 k
      obtain ⟨rfl, rfl⟩ := d.text_append_inj e ht hu (hd.ends _) (he.ends _) hs
      obtain ⟨rfl, rfl⟩ := ih hd he
      rw [ht] at hu
      exact ⟨rfl, by rw [Option.some_inj.1 hu]⟩

theorem Derives.items {ds : List Derivation} {cs : List Char} {ts : List Ty} {b : Nat}
    (h : Derives resolve ds cs ts) (hb : ∀ t ∈ ts, t.height ≤ b) :
    Items (Within resolve b) cs ts := by
  induction ds generalizing cs ts with
  | nil =>
    obtain ⟨rfl, rfl⟩ := derives_nil_iff.1 h
    exact .nil
  | cons d ds ih =>
    obtain ⟨t, us, rest, ht, hd, rfl, rfl⟩ := derives_cons_iff.1 h
    exact .cons (d.within ht (hb t (by simp))) (ih hd fun u hu => hb u (by simp [hu]))

theorem Derived.exists_derives {inner : Texts Ty} (hi : Derived resolve inner) {s : List Char}
    {ts : List Ty} (h : Items inner s ts) (hl : s.length < 2 ^ 32) :
    ∃ ds, Derives resolve ds s ts := by
  induction h with
  | nil => exact ⟨[], derives_nil_iff.2 ⟨rfl, rfl⟩⟩
  | cons ht _ ih =>
    rw [List.length_append] at hl
    obtain ⟨d, rfl, hd⟩ := hi _ _ ht (by omega)
    obtain ⟨ds, hds⟩ := ih (by omega)
    exact ⟨d :: ds, derives_cons_iff.2 ⟨_, _, _, hd, hds, rfl, rfl⟩⟩

end

end Mangled

open Mangled

/-- A text is read if and only if it has a derivation that describes no type that is too high. The
derivation is the only one of the text, and what it describes is what is read; one type is read as
such where a list of just that type is. -/
theorem demangleList_eq_ok_iff_derives {input : String} {resolve : Resolver}
    (hl : input.utf8ByteSize < 2 ^ 32) :
    (∀ ts, demangleList input resolve = .ok ts ↔
      (∃ ds, Derives resolve ds input.toList ts) ∧ ∀ t ∈ ts, t.height ≤ maxNesting) ∧
    (∀ ds es ts us, Derives resolve ds input.toList ts → Derives resolve es input.toList us →
      ds = es ∧ ts = us) ∧
    (∀ t, demangle input resolve = .ok t ↔ demangleList input resolve = .ok [t]) := by
  have hlen := (Demangle.length_le_utf8ByteSize input).trans_lt hl
  refine ⟨fun ts => ?_, fun ds es ts us h k => h.unique k, fun t => ?_⟩
  · rw [demangleList_eq_ok_iff hlen]
    constructor
    · rintro ⟨hs, hm⟩
      exact ⟨(derived_within resolve maxNesting).exists_derives hs hlen, hm⟩
    · rintro ⟨⟨ds, hd⟩, hm⟩
      exact ⟨hd.items hm, hm⟩
  · rw [demangle_eq_ok_iff hlen, demangleList_eq_ok_iff hlen]
    constructor
    · rintro ⟨hs, hm⟩
      exact ⟨.single hs, by simpa using hm⟩
    · rintro ⟨hs, hm⟩
      exact ⟨hs.of_single, hm t (by simp)⟩

/-- Two levels for three opening marks, with applications to nothing and to a wildcard. -/
theorem demangleList_eq_ok_iff_derives_levels :
    let resolve : Resolver := fun n => if n.full = "a.B" then some [.builtin .int] else none
    let text := "A$A$A$S$a_B$ST$_C$x.y_z$C$T$AT$$T$AqT$$T"
    let element := Ty.cone (.struct ⟨"a.B", "B"⟩ [.builtin .int])
      [.star, .concrete (.reference ⟨"x.y.z", "z"⟩)]
    let ts := [Ty.array (.array element 1) 2, .builtin .pointer]
    text.utf8ByteSize < 2 ^ 32 ∧ demangleList text resolve = .ok ts ∧
      (∃ ds, Derives resolve ds text.toList ts) ∧ ∀ t, demangle text resolve ≠ .ok t := by
  intro resolve text element ts
  let applied := Applications.more (.star (.type (.reference "x.y_z".toList .none) .none)) .none
  let array := Derivation.array 3 (.struct "a_B".toList applied)
    (.more (.more .none .none) (.last .none))
  have hl : text.utf8ByteSize < 2 ^ 32 := by decide +kernel
  have hd : Derives resolve [array, .letter .pointer (.more .none .none)] text.toList ts :=
    ⟨by decide +kernel, by decide +kernel⟩
  have hm : ∀ t ∈ ts, t.height ≤ maxNesting := by decide +kernel
  have hread := @demangleList_eq_ok_iff_derives text resolve hl
  have hr := (hread.1 ts).2 ⟨⟨_, hd⟩, hm⟩
  refine ⟨hl, hr, ⟨_, hd⟩, fun t ht => ?_⟩
  rw [hread.2.2, hr] at ht
  simp [ts] at ht

end NativeBridge
