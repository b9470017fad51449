import Mathlib.Data.List.Basic
import Mathlib.Data.List.Forall2

/-! # Lists without a mark and runs that succeed

Lists that a function leaves as they are, that a relation pairs or that a mark divides, and when a
computation with a state and an error ends well, and in which state.
-/
namespace NativeBridge

theorem map_eq_self_iff {α : Type} {f : α → α} {xs : List α} :
    xs.map f = xs ↔ ∀ x ∈ xs, f x = x := by
  have h := List.map_inj_left (l := xs) (f := f) (g := id)
  rwa [List.map_id] at h

theorem exists_forall₂_iff {α β : Type} {r : α → β → Prop} {xs : List α} :
    (∃ ys, List.Forall₂ r xs ys) ↔ ∀ x ∈ xs, ∃ y, r x y := by
  induction xs with
  | nil => simp
  | cons x xs ih =>
    rw [List.forall_mem_cons, ← ih]
    constructor
    · rintro ⟨_, hall⟩
      cases hall with
      | cons hy hys => exact ⟨⟨_, hy⟩, _, hys⟩
    · rintro ⟨⟨y, hy⟩, ys, hys⟩
      exact ⟨y :: ys, .cons hy hys⟩

theorem forall_ne_of_not_mem {mark : Char} {cs : List Char} (h : mark ∉ cs) :
    ∀ c ∈ cs, decide (c ≠ mark) = true := by
  intro c hc
  simp only [decide_eq_true_eq]
  rintro rfl
  exact h hc

theorem takeWhile_append_mark {mark : Char} {front tail : List Char} (h : mark ∉ front) :
    (front ++ mark :: tail).takeWhile (· ≠ mark) = front := by
  rw [List.takeWhile_append_of_pos (forall_ne_of_not_mem h)]
  simp

theorem dropWhile_append_mark {mark : Char} {front tail : List Char} (h : mark ∉ front) :
    (front ++ mark :: tail).dropWhile (· ≠ mark) = mark :: tail := by
  rw [List.dropWhile_append_of_pos (forall_ne_of_not_mem h)]
  simp

namespace Run

variable {ε σ α β : Type}

theorem bind_eq_ok_iff {p : EStateM ε σ α} {f : α → EStateM ε σ β} {r t : σ} {b : β} :
    (p >>= f) r = .ok b t ↔ ∃ a s, p r = .ok a s ∧ f a s = .ok b t := by
  change EStateM.bind p f r = _ ↔ _
  unfold EStateM.bind
  cases p r with
  | ok a s => simp
  | error e s => simp

theorem bind_eq_error_iff {p : EStateM ε σ α} {f : α → EStateM ε σ β} {r t : σ} {e : ε} :
    (p >>= f) r = .error e t ↔ p r = .error e t ∨ ∃ a s, p r = .ok a s ∧ f a s = .error e t := by
  change EStateM.bind p f r = _ ↔ _
  unfold EStateM.bind
  cases p r with
  | ok a s => simp
  | error e s => simp

theorem bind_of_ok {p : EStateM ε σ α} {r s : σ} {a : α} (h : p r = .ok a s)
    (f : α → EStateM ε σ β) : (p >>= f) r = f a s := by
  change EStateM.bind p f r = _
  rw [EStateM.bind, h]

theorem pure_eq_ok_iff {r s : σ} {a b : α} :
    (pure a : EStateM ε σ α) r = .ok b s ↔ b = a ∧ s = r := by
  change EStateM.Result.ok a r = _ ↔ _
  simp [eq_comm]

theorem pure_ne_error {e : ε} {r s : σ} {a : α} : (pure a : EStateM ε σ α) r ≠ .error e s := by
  change EStateM.Result.ok a r ≠ _
  simp

theorem bind_pure_eq_ok_iff {p : EStateM ε σ α} {f : α → β} {r t : σ} {b : β} :
    (p >>= fun a => pure (f a)) r = .ok b t ↔ ∃ a, p r = .ok a t ∧ b = f a := by
  simp only [bind_eq_ok_iff, pure_eq_ok_iff]
  constructor
  · rintro ⟨a, _, ha, hb, rfl⟩
    exact ⟨a, ha, hb⟩
  · rintro ⟨a, ha, hb⟩
    exact ⟨a, t, ha, hb, rfl⟩

theorem bind_pure_eq_error_iff {p : EStateM ε σ α} {f : α → β} {r t : σ} {e : ε} :
    (p >>= fun a => pure (f a)) r = .error e t ↔ p r = .error e t := by
  simp only [bind_eq_error_iff, pure_ne_error, and_false, exists_false, or_false]

theorem throw_eq_error_iff {d e : ε} {r s : σ} :
    (throw d : EStateM ε σ α) r = .error e s ↔ e = d ∧ s = r := by
  change EStateM.Result.error d r = _ ↔ _
  simp [eq_comm]

theorem throw_ne_ok {e : ε} {r s : σ} {a : α} : (throw e : EStateM ε σ α) r ≠ .ok a s := by
  change EStateM.Result.error e r ≠ _
  simp

/-- A check is passed by those for whom the condition for refusing does not hold. -/
theorem check_eq_ok_iff {c : Prop} [Decidable c] {e : ε} {next : Unit → EStateM ε σ β} {r s : σ}
    {b : β} : (if c then throw e >>= next else next ()) r = .ok b s ↔ ¬c ∧ next () r = .ok b s := by
  by_cases hc : c
  · rw [if_pos hc]
    refine iff_of_false (fun h => ?_) fun h => h.1 hc
    obtain ⟨_, _, h, _⟩ := bind_eq_ok_iff.1 h
    exact throw_ne_ok h
  · rw [if_neg hc]
    exact (and_iff_right hc).symm

theorem get_eq_ok_iff {r s t : σ} : (get : EStateM ε σ σ) r = .ok t s ↔ t = r ∧ s = r := by
  change EStateM.Result.ok r r = _ ↔ _
  simp [eq_comm]

theorem get_ne_error {e : ε} {r s : σ} : (get : EStateM ε σ σ) r ≠ .error e s := by
  change EStateM.Result.ok r r ≠ _
  simp

theorem modify_eq_ok_iff {f : σ → σ} {r s : σ} {u : PUnit} :
    (modify f : EStateM ε σ PUnit) r = .ok u s ↔ s = f r := by
  change EStateM.Result.ok PUnit.unit (f r) = _ ↔ _
  simp [eq_comm]

/-- A run of which something can be seen at its end has ended well. -/
theorem exists_ok_of_seen (p : EStateM ε σ α) (r : σ) (seen : α → σ → β) {b : β}
    (h : (match p r with
      | .ok a s => some (seen a s)
      | .error _ _ => none) = some b) : ∃ a s, p r = .ok a s ∧ seen a s = b := by
  split at h
  · rename_i a s hr
    exact ⟨a, s, hr, Option.some.inj h⟩
  · cases h

theorem modify_ne_error {f : σ → σ} {e : ε} {r s : σ} :
    (modify f : EStateM ε σ PUnit) r ≠ .error e s := by
  change EStateM.Result.ok PUnit.unit (f r) ≠ _
  simp

end Run

end NativeBridge
