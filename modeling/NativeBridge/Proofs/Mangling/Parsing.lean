import NativeBridge.Proofs.Mangling.Grammar

/-! # Runs of the parser on arrays and names

What the parts of the parser come to that take no text, and into which parts a run over an array, a
struct or a type falls. The heights that are returned beside the types are those of the types.
-/
namespace NativeBridge.Demangle
open Mangled

/-- The applications that have arguments, each with the height of the tallest. -/
def weighed (groups : List (List TypeArgument)) : List Application :=
  (Ty.effective groups).map fun as => (as, Ty.argumentHeights as)

@[simp] theorem weighed_nil : weighed [] = [] := rfl

@[simp] theorem weighed_cons_nil (groups : List (List TypeArgument)) :
    weighed ([] :: groups) = weighed groups := rfl

theorem weighed_cons {as : List TypeArgument} (h : as ≠ []) (groups : List (List TypeArgument)) :
    weighed (as :: groups) = (as, Ty.argumentHeights as) :: weighed groups := by
  rw [weighed, Ty.effective_cons h, List.map_cons, weighed]

section
variable {inner : Parser Parsed} {limit : Nat} {c d : Cursor}

/-- Applying and weighing at once gives the type and its height, unless it gets too high. -/
theorem applyAll_eq_ok_iff {t : Ty} (ht : t.height ≤ maxNesting)
    {groups : List (List TypeArgument)} {p : Parsed} :
    applyAll (t, t.height) (weighed groups) c = .ok p d ↔
      (t.applied groups).height ≤ maxNesting ∧
        p = (t.applied groups, (t.applied groups).height) ∧ d = c := by
  induction groups generalizing t with
  | nil =>
    rw [weighed_nil, applyAll, Run.pure_eq_ok_iff]
    simp [ht]
  | cons as groups ih =>
    by_cases h : as = []
    · subst h
      exact ih ht
    · have hh : max t.height (Ty.argumentHeights as) + 1 = (Ty.cone t as).height := by
        rw [Ty.height]
      rw [weighed_cons h, Ty.applied_cons, Ty.apply_of_ne_nil h]
      simp only [applyAll, Run.bind_eq_ok_iff, nest_eq_ok_iff, hh]
      constructor
      · rintro ⟨_, _, ⟨hn, rfl, rfl⟩, hr⟩
        exact (ih hn).1 hr
      · rintro ⟨hm, hp⟩
        have hn := (Ty.height_le_applied (.cone t as) groups).trans hm
        exact ⟨_, _, ⟨hn, rfl, rfl⟩, (ih hn).2 ⟨hm, hp⟩⟩

/-- Levels close around an element; all but the last have one element. -/
theorem wrapLevels_eq_ok_iff {dims : UInt32} {e : Ty} (he : e.height ≤ maxNesting)
    (levels : List (List (List TypeArgument))) (groups : List (List TypeArgument)) {p : Parsed} :
    wrapLevels dims (e, e.height) ((levels ++ [groups]).map weighed) c = .ok p d ↔
      ((Ty.array (e.nested levels) dims).applied groups).height ≤ maxNesting ∧
        p = ((Ty.array (e.nested levels) dims).applied groups,
          ((Ty.array (e.nested levels) dims).applied groups).height) ∧ d = c := by
  induction levels generalizing e with
  | nil =>
    have hh : e.height + 1 = (Ty.array e dims).height := by rw [Ty.height]
    simp only [List.nil_append, List.map_cons, List.map_nil, wrapLevels, Run.bind_eq_ok_iff,
      nest_eq_ok_iff, List.isEmpty_nil, if_true, hh, Ty.nested_nil]
    constructor
    · rintro ⟨_, _, ⟨hn, rfl, rfl⟩, q, f, hq, hr⟩
      obtain ⟨rfl, rfl⟩ := Run.pure_eq_ok_iff.1 hr
      exact (applyAll_eq_ok_iff hn).1 hq
    · intro h
      have hn := (Ty.height_le_applied (.array e dims) groups).trans h.1
      exact ⟨_, _, ⟨hn, rfl, rfl⟩, p, d, (applyAll_eq_ok_iff hn).2 h,
        Run.pure_eq_ok_iff.2 ⟨rfl, rfl⟩⟩
  | cons more levels ih =>
    have hh : e.height + 1 = (Ty.array e 1).height := by rw [Ty.height]
    have hl : ((levels ++ [groups]).map weighed).isEmpty = false := by simp
    simp only [List.cons_append, List.map_cons, wrapLevels, Run.bind_eq_ok_iff, nest_eq_ok_iff, hl,
      Bool.false_eq_true, if_false, hh, Ty.nested_cons]
    constructor
    · rintro ⟨_, _, ⟨hn, rfl, rfl⟩, q, f, hq, hr⟩
      obtain ⟨ha, rfl, rfl⟩ := (applyAll_eq_ok_iff hn).1 hq
      exact (ih ha).1 hr
    · intro h
      have hn := Ty.height_le_nested ((Ty.array e 1).applied more) levels
      have hd := Ty.height_succ_le_applied (((Ty.array e 1).applied more).nested levels)
        dims groups
      have ha : ((Ty.array e 1).applied more).height ≤ maxNesting := by omega
      have hn := (Ty.height_le_applied (.array e 1) more).trans ha
      exact ⟨_, _, ⟨hn, rfl, rfl⟩, _, _, (applyAll_eq_ok_iff hn).2 ⟨ha, rfl, rfl⟩, (ih ha).2 h⟩

theorem utf8Length_repeatMark (n : Nat) : utf8Length (repeatMark (openMark 'A') n) = 2 * n := by
  induction n with
  | zero => rfl
  | succ n ih =>
    have ha : utf8Length (openMark 'A') = 2 := by decide
    rw [repeatMark_succ, utf8Length_append, ih, ha]
    omega

theorem past_repeatMark {n : Nat} {rest : List Char}
    (hc : c.rest = repeatMark (openMark 'A') n ++ rest) :
    c.Past (repeatMark (openMark 'A') n) { c with rest, offset := c.offset + 2 * n } :=
  ⟨hc, by rw [utf8Length_repeatMark], rfl⟩

/-- What follows the opening marks of an array. -/
def openedArray (inner : Parser Parsed) (limit : Nat) (opened : UInt32) : Parser Parsed := do
  if opened = 0 then unexpected
  let element ← inner
  let levels ← closedLevels inner limit opened.toNat []
  if levels.isEmpty then unexpected
  wrapLevels (opened - (UInt32.ofNat levels.length - 1)) element levels

/-- An array is read in two steps: its opening marks, and what follows them. -/
theorem arrayType_eq {n : Nat} (hp : c.Past (repeatMark (openMark 'A') n) d)
    (hd : ¬ openMark 'A' <+: d.rest) :
    arrayType inner limit c = openedArray inner limit (UInt32.ofNat n) d := by
  have hg : ∀ f : Cursor → Parser Parsed, (get >>= f) c = f c c := fun _ => rfl
  have hn : n ≤ c.rest.length := by
    have hlen := hp.length_text_le
    rw [length_repeatMark] at hlen
    omega
  rw [arrayType, hg, Run.bind_of_ok (openings_eq hp hd hn 0), UInt32.zero_add]
  rfl

theorem openedArray_eq_ok_iff {n : UInt32} {p : Parsed} : openedArray inner limit n c = .ok p d ↔
    n ≠ 0 ∧ ∃ element e levels f, inner c = .ok element e ∧
      closedLevels inner limit n.toNat [] e = .ok levels f ∧ levels ≠ [] ∧
      wrapLevels (n - (UInt32.ofNat levels.length - 1)) element levels f = .ok p d := by
  simp only [openedArray, unless_eq_ok_iff, Run.bind_eq_ok_iff, List.isEmpty_iff]
  refine and_congr_right fun _ => ?_
  constructor
  · rintro ⟨element, e, he, levels, f, hf, hne, hw⟩
    exact ⟨element, e, levels, f, he, hf, hne, hw⟩
  · rintro ⟨element, e, levels, f, he, hf, hne, hw⟩
    exact ⟨element, e, he, levels, f, hf, hne, hw⟩

/-- What is left for the outermost of `k + 1` levels. -/
theorem dimensions_eq {n k : Nat} (h : k < n) :
    UInt32.ofNat n - (UInt32.ofNat (k + 1) - 1) = UInt32.ofNat (n - k) := by
  rw [UInt32.ofNat_sub h.le, UInt32.ofNat_add]
  congr 1
  exact UInt32.add_sub_cancel _ _

theorem structType_eq_ok_iff {resolve : Resolver} {p : Parsed} :
    structType resolve c = .ok p d ↔ ∃ s n fs, NameText 'S' s n ∧ resolve n = some fs ∧ c.Past s d ∧
      (Ty.struct n fs).height ≤ maxNesting ∧ p = (.struct n fs, (Ty.struct n fs).height) := by
  simp only [structType, Run.bind_eq_ok_iff, nameBetween_eq_ok_iff]
  constructor
  · rintro ⟨n, e, ⟨cs, hm, hn, he⟩, h⟩
    cases hf : resolve n with
    | none =>
      rw [hf] at h
      exact absurd h Run.throw_ne_ok
    | some fs =>
      rw [hf] at h
      simp only [Run.bind_eq_ok_iff, nest_eq_ok_iff] at h
      obtain ⟨_, _, ⟨hh, rfl, rfl⟩, h⟩ := h
      obtain ⟨rfl, rfl⟩ := Run.pure_eq_ok_iff.1 h
      exact ⟨_, n, fs, .mk hm hn, hf, he, hh, rfl⟩
  · rintro ⟨_, n, fs, ⟨hm, hn⟩, hf, he, hh, rfl⟩
    refine ⟨n, d, ⟨_, hm, hn, he⟩, ?_⟩
    rw [hf]
    simp only [Run.bind_eq_ok_iff, nest_eq_ok_iff]
    exact ⟨_, d, ⟨hh, rfl, rfl⟩, Run.pure_eq_ok_iff.2 ⟨rfl, rfl⟩⟩

theorem one_le_maxNesting : 1 ≤ maxNesting := by decide

theorem base_eq_of_nil {resolve : Resolver} (hc : c.rest = []) :
    base resolve inner limit c = unexpected c := by
  have hg : ∀ f : Cursor → Parser Parsed, (get >>= f) c = f c c := fun _ => rfl
  rw [base, hg, hc]

/-- The first character decides which type it is. -/
theorem base_eq_of_rest {resolve : Resolver} {code : Char} {rest : List Char}
    (hc : c.rest = code :: rest) : base resolve inner limit c =
    if code = 'A' then arrayType inner limit c
    else if code = 'C' then (nameBetween 'C' >>= fun n => pure (Ty.reference n, 1)) c
    else if code = 'S' then structType resolve c
    else match Kind.ofCode? code with
      | some k => .ok (.builtin k, 1) { c with rest, offset := c.offset + 1 }
      | none => unexpected c := by
  have hg : ∀ f : Cursor → Parser Parsed, (get >>= f) c = f c c := fun _ => rfl
  rw [base, hg, hc]
  by_cases hA : code = 'A'
  · subst hA
    rfl
  by_cases hC : code = 'C'
  · subst hC
    rfl
  by_cases hS : code = 'S'
  · subst hS
    rfl
  simp only [hA, hC, hS, if_false]
  cases Kind.ofCode? code <;> rfl

/-- Letters of kinds are single bytes. -/
theorem past_code {k : Kind} {code : Char} {rest : List Char} (hk : Kind.ofCode? code = some k)
    (hc : c.rest = code :: rest) : c.Past [code] { c with rest, offset := c.offset + 1 } := by
  have hu : k.code.utf8Size = 1 := by cases k <;> rfl
  rw [Kind.code_of_ofCode? hk] at hu
  refine ⟨hc, ?_, rfl⟩
  rw [utf8Length_cons, hu]
  rfl

end

end NativeBridge.Demangle
