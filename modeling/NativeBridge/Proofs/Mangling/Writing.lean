import NativeBridge.Proofs.Mangling.Grammar

/-! # How types of the grammar are written

The text of applications and of array levels, as it stands in the text of a whole type.
-/
namespace NativeBridge.Ty

def mangledArgument (a : TypeArgument) : List Char := mangledArgumentOnto a []

theorem mangledArguments_eq (as : List TypeArgument) :
    mangledArguments as = as.flatMap mangledArgument := by
  induction as with
  | nil => rfl
  | cons a as ih =>
    rw [List.flatMap_cons, ← ih, mangledArgument, mangledArgumentOnto_append, mangledArguments,
      mangledArgumentsOnto, List.nil_append, mangledArguments]

theorem mangledApplication_of_ne_nil {as : List TypeArgument} (h : as ≠ []) :
    mangledApplication as = openMark 'T' ++ as.flatMap mangledArgument ++ closeMark 'T' := by
  obtain ⟨a, as, rfl⟩ := List.exists_cons_of_ne_nil h
  rw [← mangledArguments_eq, mangledApplication, applicationOnto, mangledArguments,
    mangledArgumentsOnto, List.append_assoc, mangledArgumentOnto_append, mangledArgumentsOnto_append]
  rfl

/-- The end of an array level and the applications behind it. -/
def mangledLevel (groups : List (List TypeArgument)) : List Char :=
  closeMark 'A' ++ groups.flatMap mangledApplication

theorem mangledChars_apply (t : Ty) (as : List TypeArgument) :
    (t.apply as).mangledChars = t.mangledChars ++ mangledApplication as := by
  by_cases h : as = []
  · simp [h, mangledApplication, applicationOnto]
  · rw [apply_of_ne_nil h, mangledChars_cone]

theorem mangledChars_applied (t : Ty) (groups : List (List TypeArgument)) :
    (t.applied groups).mangledChars = t.mangledChars ++ groups.flatMap mangledApplication := by
  induction groups generalizing t with
  | nil => simp
  | cons as groups ih =>
    rw [applied_cons, ih, mangledChars_apply, List.flatMap_cons, List.append_assoc]

theorem mangledChars_array_applied (e : Ty) (d : UInt32) (groups : List (List TypeArgument)) :
    ((array e d).applied groups).mangledChars =
      repeatMark (openMark 'A') d.toNat ++ (e.mangledChars ++ mangledLevel groups) := by
  rw [mangledChars_applied, mangledChars_array, mangledLevel]
  simp only [List.append_assoc]

/-- Levels of one element have one opening mark each, all of them in front. -/
theorem mangledChars_nested (e : Ty) (levels : List (List (List TypeArgument))) :
    (e.nested levels).mangledChars = repeatMark (openMark 'A') levels.length ++
      (e.mangledChars ++ levels.flatMap mangledLevel) := by
  induction levels generalizing e with
  | nil => simp [repeatMark_zero]
  | cons groups levels ih =>
    have h1 : (1 : UInt32).toNat = 1 := rfl
    rw [nested_cons, ih, mangledChars_array_applied, h1, List.flatMap_cons, List.length_cons,
      repeatMark_add]
    simp only [List.append_assoc]

/-- An array that is opened `n` times is written with `n` marks again. -/
theorem mangledChars_levels {n : Nat} (e : Ty) {levels : List (List (List TypeArgument))}
    (groups : List (List TypeArgument)) (hlt : levels.length < n) (hn : n < 2 ^ 32) :
    ((array (e.nested levels) (UInt32.ofNat (n - levels.length))).applied groups).mangledChars =
      repeatMark (openMark 'A') n ++
        (e.mangledChars ++ (levels.flatMap mangledLevel ++ mangledLevel groups)) := by
  have hd : (UInt32.ofNat (n - levels.length)).toNat = n - levels.length :=
    UInt32.toNat_ofNat_of_lt' (Nat.lt_of_le_of_lt (Nat.sub_le _ _) hn)
  have hs : n - levels.length + levels.length = n := Nat.sub_add_cancel hlt.le
  rw [mangledChars_array_applied, mangledChars_nested, hd]
  conv_rhs => rw [← hs, repeatMark_add]
  simp only [List.append_assoc]

end NativeBridge.Ty
