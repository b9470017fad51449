import NativeBridge.Proofs.Mangling.Past
import NativeBridge.Proofs.Type.Nodes

/-! # The grammar of mangled types

A type is a plain type with applications behind it, or an array. An array is opened any number of
times and closed at most as often, around a type that opens no array itself; each closing mark has
applications of its own behind it. Types inside are those of a given grammar, so the whole is
built up from the empty grammar by levels of nesting.
-/
namespace NativeBridge

namespace Ty

/-- A type applied to groups of arguments, one after the other. -/
def applied (t : Ty) (groups : List (List TypeArgument)) : Ty := groups.foldl apply t

/-- Arrays of one element around each other, each applied to its own groups. -/
def nested (t : Ty) (levels : List (List (List TypeArgument))) : Ty :=
  levels.foldl (fun t groups => (array t 1).applied groups) t

@[simp] theorem applied_nil (t : Ty) : t.applied [] = t := rfl

@[simp] theorem applied_cons (t : Ty) (as : List TypeArgument) (groups : List (List TypeArgument)) :
    t.applied (as :: groups) = (t.apply as).applied groups := rfl

theorem applied_append (t : Ty) (groups more : List (List TypeArgument)) :
    t.applied (groups ++ more) = (t.applied groups).applied more := List.foldl_append

@[simp] theorem nested_nil (t : Ty) : t.nested [] = t := rfl

@[simp] theorem nested_cons (t : Ty) (groups : List (List TypeArgument))
    (levels : List (List (List TypeArgument))) :
    t.nested (groups :: levels) = ((array t 1).applied groups).nested levels := rfl

theorem nested_append (t : Ty) (levels more : List (List (List TypeArgument))) :
    t.nested (levels ++ more) = (t.nested levels).nested more := List.foldl_append

@[simp] theorem apply_nil (t : Ty) : t.apply [] = t := rfl

theorem apply_of_ne_nil {as : List TypeArgument} (h : as ≠ []) (t : Ty) :
    t.apply as = cone t as := by simp [apply, h]

/-- The groups that have arguments. -/
def effective (groups : List (List TypeArgument)) : List (List TypeArgument) :=
  groups.filter (· ≠ [])

@[simp] theorem effective_nil : effective [] = [] := rfl

@[simp] theorem effective_cons_nil (groups : List (List TypeArgument)) :
    effective ([] :: groups) = effective groups := rfl

theorem effective_cons {as : List TypeArgument} (h : as ≠ []) (groups : List (List TypeArgument)) :
    effective (as :: groups) = as :: effective groups :=
  List.filter_cons_of_pos (by simpa using h)

theorem applied_effective (t : Ty) (groups : List (List TypeArgument)) :
    t.applied (effective groups) = t.applied groups := by
  induction groups generalizing t with
  | nil => rfl
  | cons as groups ih =>
    by_cases h : as = []
    · subst h
      exact ih t
    · rw [effective_cons h]
      exact ih (t.apply as)

theorem nested_effective (t : Ty) (levels : List (List (List TypeArgument))) :
    t.nested (levels.map effective) = t.nested levels := by
  induction levels generalizing t with
  | nil => rfl
  | cons groups levels ih => rw [List.map_cons, nested_cons, applied_effective, ih, nested_cons]

theorem height_le_apply (t : Ty) (as : List TypeArgument) : t.height ≤ (t.apply as).height := by
  by_cases h : as = []
  · rw [h, apply_nil]
  · rw [apply_of_ne_nil h, height]
    omega

theorem argumentHeights_le_apply (t : Ty) (as : List TypeArgument) :
    argumentHeights as ≤ (t.apply as).height - 1 := by
  by_cases h : as = []
  · simp [h, argumentHeights]
  · rw [apply_of_ne_nil h, height]
    omega

theorem height_le_applied (t : Ty) (groups : List (List TypeArgument)) :
    t.height ≤ (t.applied groups).height := by
  induction groups generalizing t with
  | nil => exact le_rfl
  | cons as groups ih => exact (height_le_apply t as).trans (ih (t.apply as))

theorem height_succ_le_applied (e : Ty) (d : UInt32) (groups : List (List TypeArgument)) :
    e.height + 1 ≤ ((array e d).applied groups).height := by
  have h := height_le_applied (array e d) groups
  rwa [height] at h

/-- Arguments are lower than what they are applied to becomes. -/
theorem argumentHeights_le_applied (t : Ty) {as : List TypeArgument}
    {groups : List (List TypeArgument)} (h : as ∈ groups) :
    argumentHeights as ≤ (t.applied groups).height - 1 := by
  induction groups generalizing t with
  | nil => cases h
  | cons bs groups ih =>
    rcases List.mem_cons.1 h with rfl | h
    · have ha := argumentHeights_le_apply t as
      have hg := height_le_applied (t.apply as) groups
      rw [applied_cons]
      omega
    · exact ih (t.apply bs) h

theorem height_le_nested (t : Ty) (levels : List (List (List TypeArgument))) :
    t.height ≤ (t.nested levels).height := by
  induction levels generalizing t with
  | nil => exact le_rfl
  | cons groups levels ih =>
    have ha := height_succ_le_applied t 1 groups
    have hn := ih ((array t 1).applied groups)
    rw [nested_cons]
    omega

theorem argumentHeights_le_nested (t : Ty) {as : List TypeArgument}
    {groups : List (List TypeArgument)} {levels : List (List (List TypeArgument))}
    (hl : groups ∈ levels) (h : as ∈ groups) :
    argumentHeights as ≤ (t.nested levels).height - 1 := by
  induction levels generalizing t with
  | nil => cases hl
  | cons more levels ih =>
    rcases List.mem_cons.1 hl with rfl | hl
    · have ha := argumentHeights_le_applied (array t 1) h
      have hn := height_le_nested ((array t 1).applied groups) levels
      rw [nested_cons]
      omega
    · exact ih ((array t 1).applied more) hl

end Ty

namespace Mangled

/-- Texts and what they stand for. -/
abbrev Texts (α : Type) := List Char → α → Prop

inductive Items {α : Type} (item : Texts α) : Texts (List α)
  | nil : Items item [] []
  | cons {s rest : List Char} {a : α} {as : List α} :
    item s a → Items item rest as → Items item (s ++ rest) (a :: as)

inductive ArgumentText (inner : Texts Ty) : Texts TypeArgument
  | star : ArgumentText inner ['_'] .star
  | concrete {s : List Char} {t : Ty} : inner s t → ArgumentText inner s (.concrete t)

/-- The arguments of one application between their marks, maybe none. -/
inductive GroupText (inner : Texts Ty) : Texts (List TypeArgument)
  | mk {s : List Char} {as : List TypeArgument} : Items (ArgumentText inner) s as →
    GroupText inner (openMark 'T' ++ s ++ closeMark 'T') as

/-- The end of an array level, with the applications of that level. -/
inductive LevelText (inner : Texts Ty) : Texts (List (List TypeArgument))
  | mk {s : List Char} {groups : List (List TypeArgument)} : Items (GroupText inner) s groups →
    LevelText inner (closeMark 'A' ++ s) groups

inductive NameText (letter : Char) : Texts SymbolName
  | mk {cs : List Char} {n : SymbolName} : '$' ∉ cs →
    SymbolName.ofMangled (String.ofList cs) = .ok n →
    NameText letter (openMark letter ++ cs ++ closeMark letter) n

inductive PlainText (resolve : Resolver) : Texts Ty
  | builtin (k : Kind) : PlainText resolve [k.code] (.builtin k)
  | reference {s : List Char} {n : SymbolName} : NameText 'C' s n →
    PlainText resolve s (.reference n)
  | struct {s : List Char} {n : SymbolName} {fs : List Ty} : NameText 'S' s n →
    resolve n = some fs → PlainText resolve s (.struct n fs)

/-- Types whose inner types are those of `inner`. An array of `n` opening marks that is closed `k`
times is `k` arrays in each other, of which the outermost has the `n - (k - 1)` elements that are
left for it. -/
inductive TypeText (resolve : Resolver) (inner : Texts Ty) : Texts Ty
  | plain {s more : List Char} {t : Ty} {groups : List (List TypeArgument)} :
    PlainText resolve s t → Items (GroupText inner) more groups →
    TypeText resolve inner (s ++ more) (t.applied groups)
  | array {n : Nat} {s mid last : List Char} {e : Ty} {levels : List (List (List TypeArgument))}
    {groups : List (List TypeArgument)} :
    inner s e → ¬ openMark 'A' <+: s → Items (LevelText inner) mid levels →
    LevelText inner last groups → levels.length < n →
    TypeText resolve inner (repeatMark (openMark 'A') n ++ (s ++ (mid ++ last)))
      ((Ty.array (e.nested levels) (UInt32.ofNat (n - levels.length))).applied groups)

/-- Types in which types are nested less than `budget` deep. -/
def Within (resolve : Resolver) : Nat → Texts Ty
  | 0 => fun _ _ => False
  | budget + 1 => TypeText resolve (Within resolve budget)

section
variable {α : Type} {item : Texts α} {s rest : List Char} {a : α} {as bs : List α}

theorem Items.single (h : item s a) : Items item s [a] := by
  have := Items.cons h .nil
  rwa [List.append_nil] at this

theorem Items.append (h : Items item s as) (k : Items item rest bs) :
    Items item (s ++ rest) (as ++ bs) := by
  induction h with
  | nil => exact k
  | cons ha _ ih =>
    rw [List.append_assoc, List.cons_append]
    exact .cons ha ih

/-- Items are divided where their list is. -/
theorem Items.split (h : Items item s (as ++ bs)) :
    ∃ t rest, s = t ++ rest ∧ Items item t as ∧ Items item rest bs := by
  induction as generalizing s with
  | nil => exact ⟨[], s, rfl, .nil, h⟩
  | cons a as ih =>
    rw [List.cons_append] at h
    cases h with
    | cons ha h =>
      obtain ⟨t, rest, rfl, ht, hr⟩ := ih h
      exact ⟨_, rest, (List.append_assoc _ _ _).symm, .cons ha ht, hr⟩

theorem Items.of_single (h : Items item s [a]) : item s a := by
  cases h with
  | cons ha h =>
    cases h
    rwa [List.append_nil]

/-- There are no more items than characters. -/
theorem Items.length_le (hi : ∀ s a, item s a → s ≠ []) (h : Items item s as) :
    as.length ≤ s.length := by
  induction h with
  | nil => exact le_rfl
  | cons ha _ ih =>
    have := List.length_pos_of_ne_nil (hi _ _ ha)
    rw [List.length_cons, List.length_append]
    omega

theorem Items.of_forall {β : Type} {bs : List β} {text : β → List Char} {f : β → α}
    (h : ∀ b ∈ bs, item (text b) (f b)) : Items item (bs.flatMap text) (bs.map f) := by
  induction bs with
  | nil => exact .nil
  | cons b bs ih =>
    rw [List.flatMap_cons, List.map_cons]
    exact .cons (h b (by simp)) (ih fun c hc => h c (by simp [hc]))

end

/-- How a type starts: with no mark but one that opens an array, a name or a letter. -/
def Opening (s : List Char) : Prop :=
  ∃ c rest, s = c :: rest ∧ c ≠ 'T' ∧ c ≠ '$' ∧ c ≠ '_' ∧ (c = 'A' → openMark 'A' <+: s)

namespace Opening

variable {s : List Char}

theorem ne_nil (h : Opening s) : s ≠ [] := by
  obtain ⟨c, rest, rfl, _⟩ := h
  simp

theorem not_openMark (h : Opening s) (more : List Char) : ¬ openMark 'T' <+: s ++ more := by
  obtain ⟨c, rest, rfl, hT, _⟩ := h
  simp [openMark, hT.symm]

theorem not_closeMark (h : Opening s) (letter : Char) (more : List Char) :
    ¬ closeMark letter <+: s ++ more := by
  obtain ⟨c, rest, rfl, _, hm, _⟩ := h
  simp [closeMark, hm.symm]

theorem not_star (h : Opening s) (more : List Char) : ¬ ['_'] <+: s ++ more := by
  obtain ⟨c, rest, rfl, _, _, hu, _⟩ := h
  simp [hu.symm]

theorem not_openArray (h : Opening s) (hn : ¬ openMark 'A' <+: s) (more : List Char) :
    ¬ openMark 'A' <+: s ++ more := by
  obtain ⟨c, rest, rfl, _, _, _, hA⟩ := h
  intro hp
  have hc : 'A' = c := by simpa [openMark] using (List.cons_prefix_cons.1 hp).1
  exact hn (hA hc.symm)

end Opening

section
variable {resolve : Resolver} {inner : Texts Ty} {s : List Char} {t : Ty}

theorem PlainText.opening (h : PlainText resolve s t) : Opening s := by
  cases h with
  | builtin k => cases k <;> exact ⟨_, [], rfl, by decide⟩
  | reference h =>
    obtain ⟨_, _⟩ := h
    exact ⟨'C', _, rfl, by simp⟩
  | struct h _ =>
    obtain ⟨_, _⟩ := h
    exact ⟨'S', _, rfl, by simp⟩

theorem PlainText.not_openArray (h : PlainText resolve s t) : ¬ openMark 'A' <+: s := by
  cases h with
  | builtin k => cases k <;> decide
  | reference h =>
    obtain ⟨_, _⟩ := h
    simp [openMark]
  | struct h _ =>
    obtain ⟨_, _⟩ := h
    simp [openMark]

theorem Opening.append (h : Opening s) (more : List Char) : Opening (s ++ more) := by
  obtain ⟨c, rest, rfl, hT, hm, hu, hA⟩ := h
  exact ⟨c, rest ++ more, rfl, hT, hm, hu, fun hc => (hA hc).trans (List.prefix_append _ _)⟩

theorem opening_repeatMark {n : Nat} (hn : 0 < n) (more : List Char) :
    Opening (repeatMark (openMark 'A') n ++ more) := by
  obtain ⟨n, rfl⟩ := Nat.exists_eq_add_one.2 hn
  rw [repeatMark_succ, List.append_assoc]
  exact ⟨'A', _, rfl, by decide, by decide, by decide, fun _ => List.prefix_append _ _⟩

theorem PlainText.typeText (h : PlainText resolve s t) : TypeText resolve inner s t := by
  have hs : TypeText resolve inner _ _ := .plain h .nil
  rwa [List.append_nil] at hs

theorem TypeText.opening (h : TypeText resolve inner s t) : Opening s := by
  cases h with
  | plain hp _ => exact hp.opening.append _
  | array _ _ _ _ hn => exact opening_repeatMark (Nat.zero_lt_of_lt hn) _

/-- Every text of the grammar starts as a type does. -/
def Opens (inner : Texts Ty) : Prop := ∀ s t, inner s t → Opening s

theorem opens_within (resolve : Resolver) (budget : Nat) : Opens (Within resolve budget) := by
  intro s t h
  cases budget with
  | zero => exact absurd h not_false
  | succ budget => exact TypeText.opening h

theorem ArgumentText.ne_nil (ho : Opens inner) {a : TypeArgument} (h : ArgumentText inner s a) :
    s ≠ [] := by
  cases h with
  | star => simp
  | concrete h => exact (ho _ _ h).ne_nil

theorem GroupText.ne_nil {as : List TypeArgument} (h : GroupText inner s as) : s ≠ [] := by
  obtain ⟨_⟩ := h
  simp [openMark]

theorem LevelText.ne_nil {groups : List (List TypeArgument)} (h : LevelText inner s groups) :
    s ≠ [] := by
  obtain ⟨_⟩ := h
  simp [closeMark]

/-- Further applications belong to the last level of an array. -/
theorem TypeText.applied (h : TypeText resolve inner s t) {more : List Char}
    {groups : List (List TypeArgument)} (k : Items (GroupText inner) more groups) :
    TypeText resolve inner (s ++ more) (t.applied groups) := by
  cases h with
  | plain hp ha =>
    rw [List.append_assoc, ← Ty.applied_append]
    exact .plain hp (ha.append k)
  | array he hn hl hg hlt =>
    obtain ⟨hg⟩ := hg
    rw [← Ty.applied_append]
    have hk : TypeText resolve inner _ _ := .array he hn hl (.mk (hg.append k)) hlt
    simpa only [List.append_assoc] using hk

end

end Mangled

end NativeBridge
