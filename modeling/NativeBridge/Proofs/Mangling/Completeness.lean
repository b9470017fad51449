import NativeBridge.Proofs.Mangling.Soundness

/-! # The parser takes all that is in the grammar

A text of the grammar is taken where what follows could not go on with it, as long as no type gets
higher than is allowed and its opening marks can be counted in 32 bits. The parser has no choice to
make, so together with soundness this says exactly which texts are read, and for what.
-/
namespace NativeBridge

namespace Demangle
open Mangled

/-- Nothing in front of `rest` could go on with a type that reads `s`. -/
def Ends (s rest : List Char) : Prop :=
  ¬ openMark 'T' <+: rest ∧ (openMark 'A' <+: s → ¬ closeMark 'A' <+: rest)

/-- The parser takes every text of the grammar that ends, in front of less than `limit`
characters. -/
def Complete (limit : Nat) (p : Parser Parsed) (inner : Texts Ty) : Prop :=
  ∀ c d s t, inner s t → t.height ≤ maxNesting → c.Past s d → Ends s d.rest →
    c.rest.length < limit → p c = .ok (t, t.height) d

section
variable {inner : Parser Parsed} {grammar : Texts Ty} {limit : Nat} {c d : Cursor}

/-- No type goes on where arguments of an application follow, or its end. -/
theorem ends_arguments (ho : Opens grammar) {s rest : List Char} {as : List TypeArgument}
    (h : Items (ArgumentText grammar) s as) (text : List Char) :
    Ends text (s ++ (closeMark 'T' ++ rest)) := by
  cases h with
  | nil => simp [Ends, openMark, closeMark]
  | cons ha _ =>
    cases ha with
    | star => simp [Ends, openMark, closeMark]
    | concrete hs =>
      have hs := ho _ _ hs
      rw [List.append_assoc]
      exact ⟨hs.not_openMark _, fun _ => hs.not_closeMark _ _⟩

theorem arguments_complete (ho : Opens grammar) (hi : Complete limit inner grammar)
    {s : List Char} {as acc : List TypeArgument} (hs : Items (ArgumentText grammar) s as)
    {turns tallest : Nat} (ht : as.length < turns) (hm : Ty.argumentHeights as ≤ maxNesting)
    (hp : c.Past (s ++ closeMark 'T') d) (hl : c.rest.length < limit) :
    arguments inner turns acc tallest c =
      .ok (acc.reverse ++ as, max tallest (Ty.argumentHeights as)) d := by
  induction hs generalizing c turns tallest acc with
  | nil =>
    obtain ⟨turns, rfl⟩ := Nat.exists_eq_add_one.2 ht
    rw [List.nil_append] at hp
    rw [arguments, Run.bind_of_ok (eat_of_past hp), if_pos rfl]
    exact Run.pure_eq_ok_iff.2 ⟨by simp [Ty.argumentHeights], rfl⟩
  | @cons text s a as ha hs ih =>
    obtain ⟨turns, rfl⟩ := Nat.exists_eq_add_one.2 (Nat.zero_lt_of_lt ht)
    have hk : as.length < turns := by simpa using ht
    rw [List.append_assoc] at hp
    obtain ⟨e, he, hd⟩ := hp.split
    have hl' := he.length_le.trans_lt hl
    cases ha with
    | star =>
      have hn : ¬ closeMark 'T' <+: c.rest := by simp [he.rest, closeMark]
      rw [Ty.argumentHeights, Ty.argumentHeight, Nat.zero_max] at hm ⊢
      rw [arguments, Run.bind_of_ok (eat_of_absent hn), if_neg Bool.false_ne_true,
        Run.bind_of_ok (eat_of_past he), if_pos rfl, ih hk hm hd hl']
      simp
    | @concrete _ t hx =>
      have hx' := ho _ _ hx
      have hn : ¬ closeMark 'T' <+: c.rest := he.rest ▸ hx'.not_closeMark 'T' _
      have hu : ¬ ['_'] <+: c.rest := he.rest ▸ hx'.not_star _
      rw [Ty.argumentHeights, Ty.argumentHeight] at hm ⊢
      have hends : Ends text e.rest := by
        rw [hd.rest, List.append_assoc]
        exact ends_arguments ho hs text
      have hr := hi _ _ _ _ hx ((le_max_left _ _).trans hm) he hends hl
      rw [arguments, Run.bind_of_ok (eat_of_absent hn), if_neg Bool.false_ne_true,
        Run.bind_of_ok (eat_of_absent hu), if_neg Bool.false_ne_true, Run.bind_of_ok hr]
      dsimp only
      rw [ih hk ((le_max_right _ _).trans hm) hd hl', max_assoc]
      simp

theorem applications_complete (ho : Opens grammar) (hi : Complete limit inner grammar)
    {s : List Char} {groups : List (List TypeArgument)} {acc : List Application}
    (hs : Items (GroupText grammar) s groups) {turns : Nat} (ht : groups.length < turns)
    (hm : ∀ as ∈ groups, Ty.argumentHeights as ≤ maxNesting) (hp : c.Past s d)
    (hn : ¬ openMark 'T' <+: d.rest) (hl : c.rest.length < limit) :
    applications inner limit turns acc c = .ok (acc.reverse ++ weighed groups) d := by
  induction hs generalizing c turns acc with
  | nil =>
    obtain ⟨turns, rfl⟩ := Nat.exists_eq_add_one.2 ht
    obtain rfl := Cursor.past_nil_iff.1 hp
    rw [applications, Run.bind_of_ok (eat_of_absent hn), if_neg Bool.false_ne_true]
    exact Run.pure_eq_ok_iff.2 ⟨by simp, rfl⟩
  | @cons _ s as groups ha hs ih =>
    obtain ⟨turns, rfl⟩ := Nat.exists_eq_add_one.2 (Nat.zero_lt_of_lt ht)
    have hk : groups.length < turns := by simpa using ht
    obtain ⟨hx⟩ := ha
    rename_i text
    obtain ⟨f, hp, hd⟩ := hp.split
    rw [List.append_assoc] at hp
    obtain ⟨e, he, hf⟩ := hp.split
    have hle := he.length_le.trans_lt hl
    have hlf := hf.length_le.trans_lt hle
    have hlen : as.length < limit := by
      have h1 := hx.length_le fun _ _ h => h.ne_nil ho
      have h2 := hf.length_text_le
      rw [List.length_append] at h2
      omega
    have hr : arguments inner limit [] 0 e = .ok (as, Ty.argumentHeights as) f := by
      rw [arguments_complete ho hi hx hlen (hm as (by simp)) hf hle]
      simp
    rw [applications, Run.bind_of_ok (eat_of_past he), if_pos rfl, Run.bind_of_ok hr,
      ih hk (fun as h => hm as (by simp [h])) hd hlf]
    cases as with
    | nil => simp
    | cons a as => simp [weighed_cons]

/-- Levels keep an application from following the text in front of them. -/
theorem not_openMark_levels {s rest : List Char} {levels : List (List (List TypeArgument))}
    (h : Items (LevelText grammar) s levels) (hn : ¬ openMark 'T' <+: rest) :
    ¬ openMark 'T' <+: s ++ rest := by
  cases h with
  | nil => exact hn
  | cons ha _ =>
    obtain ⟨_⟩ := ha
    simp [openMark, closeMark]

theorem closedLevels_complete (ho : Opens grammar) (hi : Complete limit inner grammar)
    {s : List Char} {levels : List (List (List TypeArgument))} {acc : List (List Application)}
    (hs : Items (LevelText grammar) s levels) {opened : Nat} (ht : levels.length ≤ opened)
    (hm : ∀ groups ∈ levels, ∀ as ∈ groups, Ty.argumentHeights as ≤ maxNesting)
    (hp : c.Past s d) (hn : ¬ openMark 'T' <+: d.rest) (hA : ¬ closeMark 'A' <+: d.rest)
    (hl : c.rest.length < limit) :
    closedLevels inner limit opened acc c = .ok (acc.reverse ++ levels.map weighed) d := by
  induction hs generalizing c opened acc with
  | nil =>
    obtain rfl := Cursor.past_nil_iff.1 hp
    cases opened with
    | zero => exact Run.pure_eq_ok_iff.2 ⟨by simp, rfl⟩
    | succ opened =>
      rw [closedLevels, Run.bind_of_ok (eat_of_absent hA), if_neg Bool.false_ne_true]
      exact Run.pure_eq_ok_iff.2 ⟨by simp, rfl⟩
  | @cons _ s groups levels ha hs ih =>
    obtain ⟨opened, rfl⟩ := Nat.exists_eq_add_one.2 (Nat.zero_lt_of_lt ht)
    obtain ⟨hx⟩ := ha
    obtain ⟨f, hp, hd⟩ := hp.split
    obtain ⟨e, he, hf⟩ := hp.split
    have hle := he.length_le.trans_lt hl
    have hlf := hf.length_le.trans_lt hle
    have hlen : groups.length < limit := by
      have h1 := hx.length_le fun _ _ h => h.ne_nil
      have h2 := hf.length_text_le
      omega
    have hr : applications inner limit limit [] e = .ok (weighed groups) f :=
      applications_complete ho hi hx hlen (hm groups (by simp)) hf
        (hd.rest ▸ not_openMark_levels hs hn) hle
    rw [closedLevels, Run.bind_of_ok (eat_of_past he), if_pos rfl, Run.bind_of_ok hr,
      ih (Nat.le_of_succ_le_succ ht) (fun groups h => hm groups (by simp [h])) hd hlf]
    simp

theorem base_complete {resolve : Resolver} {s : List Char} {t : Ty} (hs : PlainText resolve s t)
    (hm : t.height ≤ maxNesting) (hp : c.Past s d) :
    base resolve inner limit c = .ok (t, t.height) d := by
  cases hs with
  | builtin k =>
    have hr : c.rest = k.code :: d.rest := hp.rest
    have hA : k.code ≠ 'A' := by cases k <;> decide
    have hC : k.code ≠ 'C' := by cases k <;> decide
    have hS : k.code ≠ 'S' := by cases k <;> decide
    have hu : k.code.utf8Size = 1 := by cases k <;> rfl
    have hq : c.Past [k.code] { c with rest := d.rest, offset := c.offset + 1 } :=
      ⟨hr, by simp [utf8Length, hu], rfl⟩
    rw [base_eq_of_rest hr, if_neg hA, if_neg hC, if_neg hS, Kind.ofCode?_code]
    simp only [hq.unique hp]
    rfl
  | @reference s n hn =>
    obtain ⟨hm, hn⟩ := hn
    rw [base_eq_of_rest hp.rest]
    simp only [Char.reduceEq, if_false, if_true, Run.bind_eq_ok_iff, nameBetween_eq_ok_iff]
    exact ⟨n, d, ⟨_, hm, hn, hp⟩, Run.pure_eq_ok_iff.2 ⟨rfl, rfl⟩⟩
  | @struct s n fs hn hf =>
    obtain ⟨rest, hr⟩ : ∃ rest, c.rest = 'S' :: rest := by
      obtain ⟨_, _⟩ := hn
      exact ⟨_, hp.rest⟩
    rw [base_eq_of_rest hr]
    simp only [Char.reduceEq, if_false, if_true, structType_eq_ok_iff]
    exact ⟨s, n, fs, hn, hf, hp, hm, rfl⟩

theorem arrayType_complete (ho : Opens grammar) (hi : Complete limit inner grammar) {n : Nat}
    {s mid last : List Char} {e : Ty} {levels : List (List (List TypeArgument))}
    {groups : List (List TypeArgument)} (hs : grammar s e) (hA : ¬ openMark 'A' <+: s)
    (hmid : Items (LevelText grammar) mid levels) (hlast : LevelText grammar last groups)
    (hlt : levels.length < n) {t : Ty}
    (ht : t = (Ty.array (e.nested levels) (UInt32.ofNat (n - levels.length))).applied groups)
    (hm : t.height ≤ maxNesting)
    (hp : c.Past (repeatMark (openMark 'A') n ++ (s ++ (mid ++ last))) d)
    (hn : ¬ openMark 'T' <+: d.rest) (hc : ¬ closeMark 'A' <+: d.rest)
    (hl : c.rest.length < limit) (hlimit : limit ≤ UInt32.size) :
    arrayType inner limit c = .ok (t, t.height) d := by
  have hall := hmid.append (.single hlast)
  obtain ⟨f, hf, hp⟩ := hp.split
  obtain ⟨g, hg, hp⟩ := hp.split
  have hlf := hf.length_le.trans_lt hl
  have hlg := hg.length_le.trans_lt hlf
  have hcount : ¬ openMark 'A' <+: f.rest := hg.rest ▸ (ho _ _ hs).not_openArray hA _
  -- there are fewer marks than characters, so the count is exact
  have hexact : (UInt32.ofNat n).toNat = n := by
    have hmarks := hf.length_text_le
    rw [length_repeatMark] at hmarks
    exact UInt32.toNat_ofNat_of_lt' (by omega)
  rw [arrayType_eq hf hcount, openedArray_eq_ok_iff]
  have hne : (e.nested levels).height + 1 ≤ t.height := by
    rw [ht]
    exact Ty.height_succ_le_applied _ _ _
  have he := (Ty.height_le_nested e levels).trans (Nat.le_of_succ_le (hne.trans hm))
  have hends : Ends s g.rest := by
    refine ⟨?_, fun h => absurd h hA⟩
    rw [hp.rest]
    exact not_openMark_levels hall hn
  have hgroups : ∀ groups' ∈ levels ++ [groups], ∀ as ∈ groups',
      Ty.argumentHeights as ≤ maxNesting := by
    intro groups' hg' as has
    rcases List.mem_append.1 hg' with hg' | hg'
    · have := Ty.argumentHeights_le_nested e hg' has
      omega
    · rw [List.mem_singleton] at hg'
      subst hg'
      have := Ty.argumentHeights_le_applied
        (.array (e.nested levels) (UInt32.ofNat (n - levels.length))) has
      rw [← ht] at this
      omega
  have hlen : (levels ++ [groups]).length ≤ n := by
    rw [List.length_append]
    exact hlt
  have hsome : UInt32.ofNat n ≠ 0 := by
    intro hzero
    rw [hzero] at hexact
    exact Nat.ne_zero_of_lt hlt hexact.symm
  refine ⟨hsome, (e, e.height), g, (levels ++ [groups]).map weighed, d,
    hi _ _ _ _ hs he hg hends hlf, ?_, by simp, ?_⟩
  · rw [hexact]
    exact closedLevels_complete ho hi hall hlen hgroups hp hn hc hlg
  · rw [List.length_map, List.length_append, List.length_singleton, dimensions_eq hlt,
      wrapLevels_eq_ok_iff he, ← ht]
    exact ⟨hm, rfl, rfl⟩

theorem complete_typeWith {resolve : Resolver} (ho : Opens grammar)
    (hi : Complete limit inner grammar) (hlimit : limit ≤ UInt32.size) :
    Complete limit (typeWith resolve inner limit) (TypeText resolve grammar) := by
  intro c d s t hs hm hp hends hl
  simp only [typeWith, Run.bind_eq_ok_iff]
  cases hs with
  | @plain s more t groups hs hg =>
    obtain ⟨e, he, hd⟩ := hp.split
    have hle := he.length_le.trans_lt hl
    have ht := (Ty.height_le_applied t groups).trans hm
    have hlen : groups.length < limit := by
      have h1 := hg.length_le fun _ _ h => h.ne_nil
      have h2 := hd.length_text_le
      omega
    have hgroups : ∀ as ∈ groups, Ty.argumentHeights as ≤ maxNesting := by
      intro as has
      have := Ty.argumentHeights_le_applied t has
      omega
    refine ⟨(t, t.height), e, base_complete hs ht he, weighed groups, d, ?_, ?_⟩
    · exact applications_complete ho hi hg hlen hgroups hd hends.1 hle
    · exact (applyAll_eq_ok_iff ht).2 ⟨hm, rfl, rfl⟩
  | @array n s mid last e levels groups hs hA hmid hlast hlt =>
    obtain ⟨k, rfl⟩ := Nat.exists_eq_add_one.2 (Nat.zero_lt_of_lt hlt)
    have hopen : openMark 'A' <+: repeatMark (openMark 'A') (k + 1) ++ (s ++ (mid ++ last)) := by
      rw [repeatMark_succ, List.append_assoc]
      exact List.prefix_append _ _
    have hr : ∃ rest, c.rest = 'A' :: rest := by
      obtain ⟨rest, hrest⟩ := hopen
      rw [hp.rest, ← hrest]
      exact ⟨_, rfl⟩
    obtain ⟨rest, hr⟩ := hr
    -- the last level has taken all the applications, so none are left for the type
    refine ⟨_, d, ?_, weighed [], d, ?_, (applyAll_eq_ok_iff hm).2 ⟨hm, rfl, rfl⟩⟩
    · rw [base_eq_of_rest hr, if_pos rfl]
      exact arrayType_complete ho hi hs hA hmid hlast hlt rfl hm hp hends.1 (hends.2 hopen)
        hl hlimit
    · exact applications_complete ho hi .nil (Nat.zero_lt_of_lt hl) (by simp) (.refl d) hends.1
        (hp.length_le.trans_lt hl)

theorem complete_typeWithin (resolve : Resolver) (hlimit : limit ≤ UInt32.size) (budget : Nat) :
    Complete limit (typeWithin resolve limit budget) (Within resolve budget) := by
  induction budget with
  | zero =>
    intro c d s t hs
    exact absurd hs not_false
  | succ budget ih =>
    intro c d s t hs hm hp hends hl
    obtain ⟨e, he, rfl⟩ := Cursor.past_deeper_iff.2 hp
    have hr := complete_typeWith (opens_within resolve budget) ih hlimit _ _ _ _ hs hm he hends hl
    exact deeper_eq_ok_iff.2 ⟨e, hr, rfl⟩

theorem types_complete {resolve : Resolver} {s : List Char} {ts acc : List Ty}
    (hs : Items (Within resolve maxNesting) s ts) {turns : Nat} (ht : ts.length < turns)
    (hm : ∀ t ∈ ts, t.height ≤ maxNesting) (hc : c.depth = 0) (hp : c.Past s d) (hd : d.rest = [])
    (hl : c.rest.length < limit) (hlimit : limit ≤ UInt32.size) :
    types resolve limit turns acc c = .ok (acc.reverse ++ ts) d := by
  induction hs generalizing c turns acc with
  | nil =>
    obtain ⟨turns, rfl⟩ := Nat.exists_eq_add_one.2 ht
    obtain rfl := Cursor.past_nil_iff.1 hp
    have he : atEnd d = .ok true d := atEnd_eq_ok_iff.2 ⟨by simp [hd], rfl⟩
    rw [types, Run.bind_of_ok he, if_pos rfl]
    exact Run.pure_eq_ok_iff.2 ⟨by simp, rfl⟩
  | @cons text s t ts ha hs ih =>
    obtain ⟨turns, rfl⟩ := Nat.exists_eq_add_one.2 (Nat.zero_lt_of_lt ht)
    have hk : ts.length < turns := by simpa using ht
    obtain ⟨e, he, hp⟩ := hp.split
    have hends : Ends text e.rest := by
      rw [hp.rest, hd, List.append_nil]
      cases hs with
      | nil => simp [Ends, openMark, closeMark]
      | cons hb _ =>
        have hb := opens_within _ _ _ _ hb
        exact ⟨hb.not_openMark _, fun _ => hb.not_closeMark _ _⟩
    have hne : atEnd c = .ok false c := by
      obtain ⟨_, _, hx, _⟩ := opens_within _ _ _ _ ha
      exact atEnd_eq_ok_iff.2 ⟨by simp [he.rest, hx], rfl⟩
    have hr : type resolve limit c = .ok (t, t.height) e := by
      rw [type, hc]
      exact complete_typeWithin resolve hlimit maxNesting _ _ _ _ ha (hm t (by simp)) he hends hl
    rw [types, Run.bind_of_ok hne, if_neg Bool.false_ne_true, Run.bind_of_ok hr]
    dsimp only
    rw [ih hk (fun t h => hm t (by simp [h])) (he.depth.trans hc) hp (he.length_le.trans_lt hl)]
    simp

theorem finish_eq_ok_iff {u : Unit} : finish c = .ok u d ↔ c.rest = [] ∧ d = c := by
  unfold finish
  split
  · rename_i h
    rw [List.isEmpty_iff] at h
    simp only [EStateM.Result.ok.injEq, h, true_and]
    exact eq_comm
  · rename_i h
    rw [List.isEmpty_iff] at h
    simp [h]

end

end Demangle

open Mangled

section
variable {input : String} {resolve : Resolver} {ts : List Ty} {t : Ty}
  (hl : input.toList.length < UInt32.size)
include hl

/-- A text whose marks can be counted is read if and only if it is a row of types of the grammar, none
of them too high. -/
theorem demangleList_eq_ok_iff :
    demangleList input resolve = .ok ts ↔
      Items (Within resolve maxNesting) input.toList ts ∧ ∀ t ∈ ts, t.height ≤ maxNesting := by
  rw [demangleList, Demangle.run_eq_ok_iff]
  constructor
  · rintro ⟨d, h⟩
    obtain ⟨s, more, hs, hp, hd, rfl, hm⟩ := Demangle.types_sound rfl h
    have hr : input.toList = s := by
      have := hp.rest
      rwa [hd, List.append_nil] at this
    exact ⟨hr ▸ hs, hm⟩
  · rintro ⟨hs, hm⟩
    have hlen : ts.length < Demangle.limitFor input.toList :=
      Nat.lt_succ_of_le (hs.length_le fun _ _ h => (opens_within _ _ _ _ h).ne_nil)
    refine ⟨⟨[], 0 + Demangle.utf8Length input.toList, 0⟩, ?_⟩
    exact Demangle.types_complete hs hlen hm rfl ⟨(List.append_nil _).symm, rfl, rfl⟩ rfl
      (Nat.lt_succ_self _) hl

/-- A text is read as one type if and only if it is one of the grammar that is not too high. -/
theorem demangle_eq_ok_iff :
    demangle input resolve = .ok t ↔
      Within resolve maxNesting input.toList t ∧ t.height ≤ maxNesting := by
  simp only [demangle, Demangle.run_eq_ok_iff, Run.bind_eq_ok_iff, Demangle.finish_eq_ok_iff]
  constructor
  · rintro ⟨d, ⟨u, height⟩, e, hr, _, _, ⟨he, rfl⟩, h⟩
    obtain ⟨rfl, rfl⟩ := Run.pure_eq_ok_iff.1 h
    obtain ⟨_, hm, s, hs, hp⟩ := Demangle.sound_typeWithin _ _ _ _ _ _ _ hr
    have hrest : input.toList = s := by
      have := hp.rest
      rwa [he, List.append_nil] at this
    exact ⟨hrest ▸ hs, hm⟩
  · rintro ⟨hs, hm⟩
    let d : Demangle.Cursor := ⟨[], 0 + Demangle.utf8Length input.toList, 0⟩
    have hp : Demangle.Cursor.Past ⟨input.toList, 0, 0⟩ input.toList d :=
      ⟨(List.append_nil _).symm, rfl, rfl⟩
    have hends : Demangle.Ends input.toList d.rest := by
      simp [d, Demangle.Ends, openMark, closeMark]
    have hr := Demangle.complete_typeWithin resolve hl maxNesting _ _ _ _ hs hm hp hends
      (Nat.lt_succ_self _)
    exact ⟨d, (t, t.height), d, hr, (), d, ⟨rfl, rfl⟩, Run.pure_eq_ok_iff.2 ⟨rfl, rfl⟩⟩

end

end NativeBridge
