import NativeBridge.Mangling.Demangle
import NativeBridge.Proofs.Basic

/-! # Demangling with more structs known

A resolver that knows more structs changes nothing about a text for which fewer sufficed. The two
runs are the same step by step up to the first struct that only the second one knows, where the
first run ends.
-/
namespace NativeBridge

/-- The second resolver gives the fields of every struct that the first one knows. -/
def Resolver.Within (r q : Resolver) : Prop :=
  ∀ name fields, r name = some fields → q name = some fields

/-- An error that more known structs can lift. -/
def DemangleError.IsUnresolved (e : DemangleError) : Prop := ∃ name, e = .unresolvedStruct name

namespace Demangle

variable {α β : Type}

/-- The second parser does what the first one does, unless that ends at a struct it does not know. -/
def Follows (p q : Parser α) : Prop :=
  ∀ c, (∃ e d, p c = .error e d ∧ e.IsUnresolved) ∨ q c = p c

theorem Follows.refl (p : Parser α) : Follows p p := fun _ => .inr rfl

theorem Follows.bind {p q : Parser α} {f g : α → Parser β} (hp : Follows p q)
    (hf : ∀ a, Follows (f a) (g a)) : Follows (p >>= f) (q >>= g) := by
  intro c
  rcases hp c with ⟨e, d, hd, he⟩ | hc
  · left
    exact ⟨e, d, Run.bind_eq_error_iff.2 (.inl hd), he⟩
  cases hr : p c with
  | error e d =>
    right
    have hq : (q >>= g) c = .error e d := Run.bind_eq_error_iff.2 (.inl (hc.trans hr))
    rw [hq]
    exact (Run.bind_eq_error_iff.2 (.inl hr)).symm
  | ok a d =>
    rw [Run.bind_of_ok hr, Run.bind_of_ok (hc.trans hr)]
    exact hf a d

theorem Follows.then {p : Parser α} {f g : α → Parser β} (hf : ∀ a, Follows (f a) (g a)) :
    Follows (p >>= f) (p >>= g) := (Follows.refl p).bind hf

/-- A check that ends the run where it fails. -/
theorem Follows.unless {b : Prop} [Decidable b] {stop : Parser Unit} {f g : Unit → Parser α}
    (h : ∀ u, Follows (f u) (g u)) :
    Follows (if b then stop >>= f else f ()) (if b then stop >>= g else g ()) := by
  split
  · exact .then h
  · exact h ()

theorem Follows.deeper {p q : Parser α} (h : Follows p q) : Follows (deeper p) (deeper q) := by
  intro c
  rcases h { c with depth := c.depth + 1 } with ⟨e, d, hd, he⟩ | hc
  · left
    refine ⟨e, { d with depth := d.depth - 1 }, ?_, he⟩
    rw [Demangle.deeper, hd]
  · right
    rw [Demangle.deeper, Demangle.deeper, hc]

section
variable {inner inner' : Parser Parsed} (h : Follows inner inner') (limit : Nat)
include h

theorem follows_arguments (turns : Nat) (acc : List TypeArgument) (tallest : Nat) :
    Follows (arguments inner turns acc tallest) (arguments inner' turns acc tallest) := by
  induction turns generalizing acc tallest with
  | zero => exact .refl _
  | succ turns ih =>
    refine .then fun closed => ?_
    cases closed with
    | true => exact .refl _
    | false =>
      refine .then fun star => ?_
      cases star with
      | true => exact ih _ _
      | false => exact h.bind fun _ => ih _ _

theorem follows_applications (turns : Nat) (acc : List Application) :
    Follows (applications inner limit turns acc) (applications inner' limit turns acc) := by
  induction turns generalizing acc with
  | zero => exact .refl _
  | succ turns ih =>
    refine .then fun opened => ?_
    cases opened with
    | true => exact (follows_arguments h limit [] 0).bind fun _ => ih _
    | false => exact .refl _

theorem follows_closedLevels (opened : Nat) (acc : List (List Application)) :
    Follows (closedLevels inner limit opened acc) (closedLevels inner' limit opened acc) := by
  induction opened generalizing acc with
  | zero => exact .refl _
  | succ opened ih =>
    refine .then fun closed => ?_
    cases closed with
    | true => exact (follows_applications h limit limit []).bind fun _ => ih _
    | false => exact .refl _

theorem follows_arrayType : Follows (arrayType inner limit) (arrayType inner' limit) := by
  refine .then fun c => .then fun _ => .unless fun _ => h.bind fun _ => ?_
  refine (follows_closedLevels h limit _ []).bind fun levels => ?_
  exact .unless fun _ => .refl _

variable {r q : Resolver} (hr : r.Within q)
include hr

omit h in
/-- The only place where a resolver is asked. -/
theorem follows_structType : Follows (structType r) (structType q) := by
  refine .then fun name => ?_
  cases hn : r name with
  | none =>
    intro c
    left
    exact ⟨_, c, rfl, name.full, rfl⟩
  | some fields =>
    rw [hr name fields hn]
    exact .refl _

theorem follows_base : Follows (base r inner limit) (base q inner' limit) := by
  refine .then fun c => ?_
  split
  · exact follows_arrayType h limit
  · exact .refl _
  · exact follows_structType hr
  · exact .refl _
  · exact .refl _

theorem follows_typeWith : Follows (typeWith r inner limit) (typeWith q inner' limit) :=
  (follows_base h limit hr).bind fun _ => (follows_applications h limit limit []).bind fun _ => .refl _

end

variable {r q : Resolver} (hr : r.Within q) (limit : Nat)
include hr

theorem follows_typeWithin (budget : Nat) :
    Follows (typeWithin r limit budget) (typeWithin q limit budget) := by
  induction budget with
  | zero => exact .refl _
  | succ budget ih => exact (follows_typeWith ih limit hr).deeper

theorem follows_type : Follows (type r limit) (type q limit) :=
  fun c => follows_typeWithin hr limit (maxNesting - c.depth) c

theorem follows_types (turns : Nat) (acc : List Ty) :
    Follows (types r limit turns acc) (types q limit turns acc) := by
  induction turns generalizing acc with
  | zero => exact .refl _
  | succ turns ih =>
    refine .then fun ended => ?_
    cases ended with
    | true => exact .refl _
    | false => exact (follows_type hr limit).bind fun _ => ih _

omit hr in
theorem Follows.run {p p' : Parser α} (h : Follows p p') (cs : List Char) :
    (∃ e, run p cs = .error e ∧ e.IsUnresolved) ∨ run p' cs = run p cs := by
  rcases h ⟨cs, 0, 0⟩ with ⟨e, d, hd, he⟩ | hc
  · left
    refine ⟨e, ?_, he⟩
    rw [Demangle.run, hd]
  · right
    rw [Demangle.run, Demangle.run, hc]

end Demangle

/-- With more structs known a list is read as before, unless a struct was missing. -/
theorem demangleList_within {r q : Resolver} (hr : r.Within q) (input : String) :
    (∃ e, demangleList input r = .error e ∧ e.IsUnresolved) ∨
      demangleList input q = demangleList input r :=
  (Demangle.follows_types hr _ _ []).run input.toList

end NativeBridge
