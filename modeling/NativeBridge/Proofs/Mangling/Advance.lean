import NativeBridge.Proofs.Mangling.Parsing

/-! # Parsers that only advance

However a parser ends, with a result or with an error, it leaves its cursor past some of the text that
was ahead, and on the level of nesting that it found.
-/
namespace NativeBridge.Demangle

variable {α β : Type}

/-- The state in which a run ends, well or not. -/
def last {ε σ : Type} : EStateM.Result ε σ α → σ
  | .ok _ s => s
  | .error _ s => s

/-- Wherever the parser starts and however it ends, it has moved past some text. -/
def Advances (p : Parser α) : Prop := ∀ c : Cursor, ∃ s, c.Past s (last (p c))

namespace Advances

variable {p : Parser α} {f : α → Parser β}

/-- A parser that stays where it is. -/
theorem of_stays (h : ∀ c, last (p c) = c) : Advances p := fun c =>
  ⟨[], (h c).symm ▸ .refl c⟩

theorem pure (a : α) : Advances (Pure.pure a : Parser α) := of_stays fun _ => rfl

theorem throw (e : DemangleError) : Advances (MonadExcept.throw e : Parser α) := of_stays fun _ => rfl

theorem bind (hp : Advances p) (hf : ∀ a, Advances (f a)) : Advances (p >>= f) := by
  intro c
  obtain ⟨s, hs⟩ := hp c
  cases hr : p c with
  | ok a d =>
    obtain ⟨t, ht⟩ := hf a d
    rw [hr] at hs
    rw [Run.bind_of_ok hr]
    exact ⟨s ++ t, hs.trans ht⟩
  | error e d =>
    rw [hr] at hs
    rw [Run.bind_eq_error_iff.2 (.inl hr)]
    exact ⟨s, hs⟩

theorem unexpected : Advances (unexpected : Parser α) := by
  refine of_stays fun c => ?_
  unfold Demangle.unexpected
  cases c.rest <;> rfl

theorem tooDeep : Advances (tooDeep : Parser α) := of_stays fun _ => rfl

/-- A check that ends the run where it fails. -/
theorem guard {b : Prop} [Decidable b] {f : Unit → Parser β} (h : Advances (f ())) :
    Advances (if b then Demangle.unexpected >>= f else f ()) := by
  split
  · exact unexpected.bind fun _ => h
  · exact h

theorem atEnd : Advances atEnd := of_stays fun _ => rfl

theorem eat (mark : List Char) : Advances (eat mark) := by
  intro c
  cases hr : Demangle.eat mark c with
  | ok b d =>
    obtain ⟨_, hd⟩ | ⟨_, rfl, _⟩ := eat_eq_ok_iff.1 hr
    · exact ⟨mark, hd⟩
    · exact ⟨[], .refl _⟩
  | error e d =>
    unfold Demangle.eat at hr
    split at hr <;> cases hr

theorem expect (mark : List Char) : Advances (expect mark) := by
  refine (eat mark).bind fun found => ?_
  split
  · exact pure ()
  · exact unexpected

theorem nest (child : Nat) : Advances (nest child) := by
  unfold Demangle.nest
  split
  · exact tooDeep
  · exact pure _

theorem upToMark : Advances upToMark := by
  intro c
  cases hr : Demangle.upToMark c with
  | ok taken d => exact ⟨taken, (upToMark_eq_ok_iff.1 hr).2.1⟩
  | error e d =>
    unfold Demangle.upToMark at hr
    split at hr
    · cases hr
    · cases hr
      exact ⟨[], .refl _⟩

theorem nameBetween (letter : Char) : Advances (nameBetween letter) := by
  refine (expect _).bind fun _ => upToMark.bind fun cs => (expect _).bind fun _ => ?_
  split
  · exact pure _
  · exact throw _

theorem deeper (h : Advances p) : Advances (deeper p) := by
  intro c
  obtain ⟨s, hs⟩ := h { c with depth := c.depth + 1 }
  have hd : last (Demangle.deeper p c) =
      { last (p { c with depth := c.depth + 1 }) with
        depth := (last (p { c with depth := c.depth + 1 })).depth - 1 } := by
    unfold Demangle.deeper
    cases p { c with depth := c.depth + 1 } <;> rfl
  exact ⟨s, Cursor.past_deeper_iff.1 ⟨_, hs, hd⟩⟩

theorem applyAll (parsed : Parsed) (groups : List Application) :
    Advances (applyAll parsed groups) := by
  induction groups generalizing parsed with
  | nil => exact pure _
  | cons group groups ih => exact (nest _).bind fun _ => ih _

theorem wrapLevels (dims : UInt32) (parsed : Parsed) (levels : List (List Application)) :
    Advances (wrapLevels dims parsed levels) := by
  induction levels generalizing parsed with
  | nil => exact pure _
  | cons applied levels ih => exact (nest _).bind fun _ => (applyAll _ _).bind fun _ => ih _

section
variable {inner : Parser Parsed} (h : Advances inner) (limit : Nat)
include h

theorem arguments (turns : Nat) (acc : List TypeArgument) (tallest : Nat) :
    Advances (arguments inner turns acc tallest) := by
  induction turns generalizing acc tallest with
  | zero => exact unexpected
  | succ turns ih =>
    refine (eat _).bind fun closed => ?_
    split
    · exact pure _
    refine (eat _).bind fun star => ?_
    split
    · exact ih _ _
    · exact h.bind fun _ => ih _ _

theorem applications (turns : Nat) (acc : List Application) :
    Advances (applications inner limit turns acc) := by
  induction turns generalizing acc with
  | zero => exact unexpected
  | succ turns ih =>
    refine (eat _).bind fun opened => ?_
    split
    · exact (arguments h limit [] 0).bind fun _ => ih _
    · exact pure _

theorem closedLevels (opened : Nat) (acc : List (List Application)) :
    Advances (closedLevels inner limit opened acc) := by
  induction opened generalizing acc with
  | zero => exact pure _
  | succ opened ih =>
    refine (eat _).bind fun closed => ?_
    split
    · exact (applications h limit limit []).bind fun _ => ih _
    · exact pure _

end

end Advances

/-- Every text has opening marks in front of it, maybe none, and they are read first. -/
theorem exists_arrayType_eq (inner : Parser Parsed) (limit : Nat) (c : Cursor) :
    ∃ n d, c.Past (repeatMark (openMark 'A') n) d ∧ ¬ openMark 'A' <+: d.rest ∧
      arrayType inner limit c = openedArray inner limit (UInt32.ofNat n) d := by
  obtain ⟨n, rest, hc, hn⟩ := exists_repeatMark c.rest
  have hp := past_repeatMark hc
  exact ⟨n, _, hp, hn, arrayType_eq hp hn⟩

namespace Advances

variable {inner : Parser Parsed} (h : Advances inner) (limit : Nat)
include h

theorem openedArray (opened : UInt32) : Advances (openedArray inner limit opened) := by
  unfold Demangle.openedArray
  refine guard (h.bind fun element => (closedLevels h limit opened.toNat []).bind fun levels => ?_)
  exact guard (wrapLevels _ _ _)

theorem arrayType : Advances (arrayType inner limit) := by
  intro c
  obtain ⟨n, d, hd, _, hr⟩ := exists_arrayType_eq inner limit c
  obtain ⟨s, hs⟩ := openedArray h limit (UInt32.ofNat n) d
  rw [hr]
  exact ⟨_, hd.trans hs⟩

omit h in
theorem structType (resolve : Resolver) : Advances (structType resolve) := by
  refine (nameBetween 'S').bind fun name => ?_
  split
  · exact throw _
  · exact (nest _).bind fun _ => pure _

theorem base (resolve : Resolver) : Advances (base resolve inner limit) := by
  intro c
  cases hc : c.rest with
  | nil =>
    rw [base_eq_of_nil hc]
    exact unexpected c
  | cons code rest =>
    rw [base_eq_of_rest hc]
    split_ifs
    · exact arrayType h limit c
    · exact ((nameBetween 'C').bind fun _ => pure _) c
    · exact structType resolve c
    · split
      · rename_i k hk
        exact ⟨[code], past_code hk hc⟩
      · exact unexpected c

theorem typeWith (resolve : Resolver) : Advances (typeWith resolve inner limit) :=
  (base h limit resolve).bind fun _ => (applications h limit limit []).bind fun _ => applyAll _ _

omit h in
theorem typeWithin (resolve : Resolver) (budget : Nat) :
    Advances (typeWithin resolve limit budget) := by
  induction budget with
  | zero => exact tooDeep
  | succ budget ih => exact (typeWith ih limit resolve).deeper

omit h in
theorem type (resolve : Resolver) : Advances (type resolve limit) :=
  fun c => typeWithin limit resolve (maxNesting - c.depth) c

end Advances

end NativeBridge.Demangle
