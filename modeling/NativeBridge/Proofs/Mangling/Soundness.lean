import NativeBridge.Proofs.Mangling.Parsing

/-! # The parser takes only what is in the grammar

Every part of the parser takes a text of the grammar for what it returns. Since a parser is given
the one for the types inside, the grammar and the parser grow together, a level of nesting at a
time.
-/
namespace NativeBridge.Demangle
open Mangled

/-- The parser takes only texts of the grammar, and returns types that are not too high, each with
its height. -/
def Sound (p : Parser Parsed) (inner : Texts Ty) : Prop :=
  ∀ c d t height, p c = .ok (t, height) d →
    height = t.height ∧ t.height ≤ maxNesting ∧ ∃ s, inner s t ∧ c.Past s d

section
variable {inner : Parser Parsed} {grammar : Texts Ty} {limit : Nat} {c d : Cursor}

theorem arguments_sound (hi : Sound inner grammar) {turns tallest h : Nat}
    {acc as : List TypeArgument} (hr : arguments inner turns acc tallest c = .ok (as, h) d) :
    ∃ s more, Items (ArgumentText grammar) s more ∧ c.Past (s ++ closeMark 'T') d ∧
      as = acc.reverse ++ more ∧ h = max tallest (Ty.argumentHeights more) := by
  induction turns generalizing acc tallest c with
  | zero => exact absurd hr unexpected_ne_ok
  | succ turns ih =>
    simp only [arguments, Run.bind_eq_ok_iff, eat_eq_ok_iff] at hr
    obtain ⟨_, e, ⟨rfl, he⟩ | ⟨rfl, rfl, _⟩, hr⟩ := hr
    · obtain ⟨ha, rfl⟩ := Run.pure_eq_ok_iff.1 hr
      obtain ⟨rfl, rfl⟩ := Prod.mk.inj ha
      exact ⟨[], [], .nil, he, by simp, by simp [Ty.argumentHeights]⟩
    · simp only [Bool.false_eq_true, if_false, Run.bind_eq_ok_iff, eat_eq_ok_iff] at hr
      obtain ⟨_, f, ⟨rfl, hf⟩ | ⟨rfl, rfl, _⟩, hr⟩ := hr
      · obtain ⟨s, more, hs, hp, rfl, rfl⟩ := ih hr
        refine ⟨['_'] ++ s, .star :: more, .cons .star hs, hf.trans hp, by simp, ?_⟩
        simp [Ty.argumentHeights, Ty.argumentHeight]
      · simp only [Bool.false_eq_true, if_false, Run.bind_eq_ok_iff] at hr
        obtain ⟨⟨t, height⟩, f, hf, hr⟩ := hr
        obtain ⟨rfl, _, text, ht, hf⟩ := hi _ _ _ _ hf
        obtain ⟨s, more, hs, hp, rfl, rfl⟩ := ih hr
        refine ⟨text ++ s, .concrete t :: more, .cons (.concrete ht) hs, ?_, by simp, ?_⟩
        · rw [List.append_assoc]
          exact hf.trans hp
        · simp [Ty.argumentHeights, Ty.argumentHeight, max_assoc]

theorem applications_sound (hi : Sound inner grammar) {turns : Nat} {acc as : List Application}
    (hr : applications inner limit turns acc c = .ok as d) :
    ∃ s groups, Items (GroupText grammar) s groups ∧ c.Past s d ∧
      as = acc.reverse ++ weighed groups := by
  induction turns generalizing acc c with
  | zero => exact absurd hr unexpected_ne_ok
  | succ turns ih =>
    simp only [applications, Run.bind_eq_ok_iff, eat_eq_ok_iff] at hr
    obtain ⟨_, e, ⟨rfl, he⟩ | ⟨rfl, rfl, _⟩, hr⟩ := hr
    · simp only [if_true, Run.bind_eq_ok_iff] at hr
      obtain ⟨⟨group, tallest⟩, f, hf, hr⟩ := hr
      obtain ⟨s, more, hs, hp, rfl, rfl⟩ := arguments_sound hi hf
      obtain ⟨rest, groups, hg, hq, rfl⟩ := ih hr
      refine ⟨_, _, .cons (.mk hs) hg, ?_, ?_⟩
      · rw [List.append_assoc (openMark 'T')]
        exact (he.trans hp).trans hq
      · cases group with
        | nil => simp
        | cons a as => simp [weighed_cons]
    · obtain ⟨rfl, rfl⟩ := Run.pure_eq_ok_iff.1 hr
      exact ⟨[], [], .nil, .refl _, by simp⟩

theorem closedLevels_sound (hi : Sound inner grammar) {opened : Nat}
    {acc ls : List (List Application)}
    (hr : closedLevels inner limit opened acc c = .ok ls d) :
    ∃ s levels, Items (LevelText grammar) s levels ∧ c.Past s d ∧ levels.length ≤ opened ∧
      ls = acc.reverse ++ levels.map weighed := by
  induction opened generalizing acc c with
  | zero =>
    obtain ⟨rfl, rfl⟩ := Run.pure_eq_ok_iff.1 hr
    exact ⟨[], [], .nil, .refl _, le_rfl, by simp⟩
  | succ opened ih =>
    simp only [closedLevels, Run.bind_eq_ok_iff, eat_eq_ok_iff] at hr
    obtain ⟨_, e, ⟨rfl, he⟩ | ⟨rfl, rfl, _⟩, hr⟩ := hr
    · simp only [if_true, Run.bind_eq_ok_iff] at hr
      obtain ⟨applied, f, hf, hr⟩ := hr
      obtain ⟨s, groups, hs, hp, rfl⟩ := applications_sound hi hf
      obtain ⟨rest, levels, hl, hq, hlen, rfl⟩ := ih hr
      refine ⟨_, _, .cons (.mk hs) hl, (he.trans hp).trans hq, ?_, by simp⟩
      exact Nat.succ_le_succ hlen
    · obtain ⟨rfl, rfl⟩ := Run.pure_eq_ok_iff.1 hr
      exact ⟨[], [], .nil, .refl _, Nat.zero_le _, by simp⟩

theorem arrayType_sound {resolve : Resolver} (hi : Sound inner grammar) {t : Ty} {h : Nat}
    (hr : arrayType inner limit c = .ok (t, h) d) :
    h = t.height ∧ t.height ≤ maxNesting ∧ ∃ s, TypeText resolve grammar s t ∧ c.Past s d := by
  obtain ⟨n, rest, hc, hn⟩ := exists_repeatMark c.rest
  have he := past_repeatMark hc
  rw [arrayType_eq he hn, openedArray_eq_ok_iff] at hr
  obtain ⟨_, ⟨element, _⟩, f, _, g, hf, hg, hne, hw⟩ := hr
  obtain ⟨rfl, hm, s, hs, hf⟩ := hi _ _ _ _ hf
  obtain ⟨more, levels, hl, hg, hlen, rfl⟩ := closedLevels_sound hi hg
  rcases List.eq_nil_or_concat' levels with rfl | ⟨levels, groups, rfl⟩
  · exact absurd rfl hne
  · obtain ⟨mid, last, rfl, hmid, hlast⟩ := hl.split
    -- the count may have gone round, but no more levels are closed than it says
    have hlt : levels.length < n := by
      rw [List.length_append, UInt32.toNat_ofNat'] at hlen
      exact hlen.trans (Nat.mod_le _ _)
    rw [List.reverse_nil, List.nil_append, List.length_map, List.length_append, List.length_singleton,
      dimensions_eq hlt, wrapLevels_eq_ok_iff hm] at hw
    obtain ⟨ht, hp, rfl⟩ := hw
    obtain ⟨rfl, rfl⟩ := Prod.mk.inj hp
    -- all the opening marks were counted before the element
    have hA : ¬ openMark 'A' <+: s := by
      intro hA
      have hr : rest = s ++ f.rest := hf.rest
      exact hn (hr ▸ hA.trans (List.prefix_append _ _))
    exact ⟨rfl, ht, _, .array hs hA hmid hlast.of_single hlt, he.trans (hf.trans hg)⟩

theorem base_sound {resolve : Resolver} (hi : Sound inner grammar) {t : Ty} {h : Nat}
    (hr : base resolve inner limit c = .ok (t, h) d) :
    h = t.height ∧ t.height ≤ maxNesting ∧ ∃ s, TypeText resolve grammar s t ∧ c.Past s d := by
  cases hc : c.rest with
  | nil =>
    rw [base_eq_of_nil hc] at hr
    exact absurd hr unexpected_ne_ok
  | cons code rest =>
    rw [base_eq_of_rest hc] at hr
    split at hr
    · exact arrayType_sound hi hr
    split at hr
    · simp only [Run.bind_eq_ok_iff, nameBetween_eq_ok_iff] at hr
      obtain ⟨n, e, ⟨cs, hm, hn, he⟩, hr⟩ := hr
      obtain ⟨hp, rfl⟩ := Run.pure_eq_ok_iff.1 hr
      obtain ⟨rfl, rfl⟩ := Prod.mk.inj hp
      exact ⟨rfl, one_le_maxNesting, _, (PlainText.reference (.mk hm hn)).typeText, he⟩
    split at hr
    · obtain ⟨s, n, fs, hn, hf, he, hh, hp⟩ := structType_eq_ok_iff.1 hr
      obtain ⟨rfl, rfl⟩ := Prod.mk.inj hp
      exact ⟨rfl, hh, s, (PlainText.struct hn hf).typeText, he⟩
    split at hr
    · rename_i k hk
      simp only [EStateM.Result.ok.injEq, Prod.mk.injEq] at hr
      obtain ⟨⟨rfl, rfl⟩, rfl⟩ := hr
      have he := past_code hk hc
      rw [← Kind.code_of_ofCode? hk] at he
      exact ⟨rfl, one_le_maxNesting, _, (PlainText.builtin k).typeText, he⟩
    · exact absurd hr unexpected_ne_ok

theorem sound_typeWith {resolve : Resolver} (hi : Sound inner grammar) :
    Sound (typeWith resolve inner limit) (TypeText resolve grammar) := by
  intro c d t h hr
  simp only [typeWith, Run.bind_eq_ok_iff] at hr
  obtain ⟨⟨g, _⟩, e, hb, _, f, ha, hr⟩ := hr
  obtain ⟨rfl, hm, s, hs, he⟩ := base_sound hi hb
  obtain ⟨more, groups, hg, hf, rfl⟩ := applications_sound hi ha
  obtain ⟨ht, hp, rfl⟩ := (applyAll_eq_ok_iff hm).1 hr
  obtain ⟨rfl, rfl⟩ := Prod.mk.inj hp
  exact ⟨rfl, ht, _, hs.applied hg, he.trans hf⟩

theorem sound_typeWithin (resolve : Resolver) (limit budget : Nat) :
    Sound (typeWithin resolve limit budget) (Within resolve budget) := by
  induction budget with
  | zero =>
    intro c d t h hr
    simp [typeWithin, tooDeep] at hr
  | succ budget ih =>
    intro c d t h hr
    obtain ⟨e, he, hd⟩ := deeper_eq_ok_iff.1 hr
    obtain ⟨rfl, hm, s, hs, hp⟩ := sound_typeWith ih _ _ _ _ he
    exact ⟨rfl, hm, s, hs, Cursor.past_deeper_iff.1 ⟨e, hp, hd⟩⟩

theorem types_sound {resolve : Resolver} {turns : Nat} {acc ts : List Ty} (hc : c.depth = 0)
    (hr : types resolve limit turns acc c = .ok ts d) :
    ∃ s more, Items (Within resolve maxNesting) s more ∧ c.Past s d ∧ d.rest = [] ∧
      ts = acc.reverse ++ more ∧ ∀ t ∈ more, t.height ≤ maxNesting := by
  induction turns generalizing acc c with
  | zero => exact absurd hr unexpected_ne_ok
  | succ turns ih =>
    simp only [types, Run.bind_eq_ok_iff, atEnd_eq_ok_iff] at hr
    obtain ⟨_, _, ⟨rfl, rfl⟩, hr⟩ := hr
    split at hr
    · rename_i he
      obtain ⟨rfl, rfl⟩ := Run.pure_eq_ok_iff.1 hr
      exact ⟨[], [], .nil, .refl _, List.isEmpty_iff.1 he, by simp, by simp⟩
    · simp only [Run.bind_eq_ok_iff, type, hc, Nat.sub_zero] at hr
      obtain ⟨⟨t, _⟩, e, he, hr⟩ := hr
      obtain ⟨rfl, hm, s, hs, he⟩ := sound_typeWithin resolve limit maxNesting _ _ _ _ he
      obtain ⟨rest, more, hi, hd, hn, rfl, hh⟩ := ih (he.depth.trans hc) hr
      refine ⟨_, _, .cons hs hi, he.trans hd, hn, by simp, ?_⟩
      simpa using ⟨hm, hh⟩

end

end NativeBridge.Demangle
