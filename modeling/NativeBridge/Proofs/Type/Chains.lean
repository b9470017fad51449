import NativeBridge.Proofs.Type.Nodes

/-! # Arrays directly in each other

An array, the array that is left of its element below the generic applications, the array in that
one, and so on make a chain. The canonical form of a type gives one element to every array of a
chain but the outermost, which has the sum of what the others lose. Fields of structs are left as
they are.
-/
namespace NativeBridge.Ty

mutual

/-- A type and the types inside it that are not inside fields of a struct. -/
def visible : Ty → List Ty
  | builtin k => [builtin k]
  | array e d => array e d :: visible e
  | struct n fs => [struct n fs]
  | reference n => [reference n]
  | cone g as => cone g as :: (visible g ++ visibleInArguments as)

def visibleInArgument : TypeArgument → List Ty
  | .star => []
  | .concrete t => visible t

def visibleInArguments : List TypeArgument → List Ty
  | [] => []
  | a :: as => visibleInArgument a ++ visibleInArguments as

end

theorem visibleInArguments_eq (as : List TypeArgument) :
    visibleInArguments as = as.flatMap visibleInArgument := by
  induction as with
  | nil => rfl
  | cons a as ih => rw [visibleInArguments, ih, List.flatMap_cons]

theorem self_mem_visible (t : Ty) : t ∈ t.visible := by cases t <;> simp [visible]

theorem mem_visible_array {u e : Ty} {d : UInt32} :
    u ∈ (array e d).visible ↔ u = array e d ∨ u ∈ e.visible := by simp [visible]

theorem mem_visible_cone {u g : Ty} {as : List TypeArgument} :
    u ∈ (cone g as).visible ↔ u = cone g as ∨ u ∈ g.visible ∨
      ∃ t, TypeArgument.concrete t ∈ as ∧ u ∈ t.visible := by
  have ha : u ∈ visibleInArguments as ↔ ∃ t, TypeArgument.concrete t ∈ as ∧ u ∈ t.visible := by
    rw [visibleInArguments_eq, List.mem_flatMap]
    constructor
    · rintro ⟨a, ha, hu⟩
      cases a with
      | star => simp [visibleInArgument] at hu
      | concrete t => exact ⟨t, ha, hu⟩
    · rintro ⟨t, ha, hu⟩
      exact ⟨.concrete t, ha, hu⟩
  simp [visible, ha]

/-- The number of arrays in the chain that a type starts with. -/
def chainLength : Ty → Nat
  | array e _ => chainLength e + 1
  | cone g _ => chainLength g
  | _ => 0

/-- The sum of the dimensions in the chain that a type starts with. -/
def chainDims : Ty → Nat
  | array e d => chainDims e + d.toNat
  | cone g _ => chainDims g
  | _ => 0

/-- The dimensions of the outermost array of a chain, when all the others have one element. -/
def outerDims (t : Ty) : UInt32 := UInt32.ofNat (t.chainDims - (t.chainLength - 1))

mutual

/-- The canonical form but for the outermost array of the chain at the start, which gets `dims`. -/
def reshaped : Ty → UInt32 → Ty
  | builtin k, _ => builtin k
  | array e _, dims => array (reshaped e 1) dims
  | struct n fs, _ => struct n fs
  | reference n, _ => reference n
  | cone g as, dims => cone (reshaped g dims) (canonicalArguments as)

def canonicalArgument : TypeArgument → TypeArgument
  | .star => .star
  | .concrete t => .concrete (reshaped t t.outerDims)

def canonicalArguments : List TypeArgument → List TypeArgument
  | [] => []
  | a :: as => canonicalArgument a :: canonicalArguments as

end

/-- The type with one element for every array of a chain but the outermost. -/
def canonical (t : Ty) : Ty := t.reshaped t.outerDims

theorem canonicalArguments_eq (as : List TypeArgument) :
    canonicalArguments as = as.map canonicalArgument := by
  induction as with
  | nil => rfl
  | cons a as ih => rw [canonicalArguments, ih, List.map_cons]

@[simp] theorem canonicalArguments_eq_nil_iff {as : List TypeArgument} :
    canonicalArguments as = [] ↔ as = [] := by simp [canonicalArguments_eq]

/-- Where no array is in front, the dimensions are not used. -/
theorem reshaped_eq_canonical {t : Ty} (h : t.chainLength = 0) (dims : UInt32) :
    t.reshaped dims = t.canonical := by
  rw [canonical]
  generalize t.outerDims = more
  induction t using Ty.inductionOn with
  | builtin k => rfl
  | array e d ih => simp [chainLength] at h
  | struct n fs ih => rfl
  | reference n => rfl
  | cone g as ihg iha =>
    rw [chainLength] at h
    rw [reshaped, reshaped, ihg h]

theorem argumentHeights_map {f : TypeArgument → TypeArgument} {as : List TypeArgument}
    (h : ∀ a ∈ as, argumentHeight (f a) = argumentHeight a) :
    argumentHeights (as.map f) = argumentHeights as := by
  induction as with
  | nil => rfl
  | cons a as ih =>
    rw [List.map_cons, argumentHeights, argumentHeights, h a (by simp),
      ih fun b hb => h b (by simp [hb])]

@[simp] theorem height_reshaped (t : Ty) (dims : UInt32) : (t.reshaped dims).height = t.height := by
  induction t using Ty.inductionOn generalizing dims with
  | builtin k => rfl
  | array e d ih => rw [reshaped, height, height, ih]
  | struct n fs ih => rfl
  | reference n => rfl
  | cone g as ihg iha =>
    have ha : argumentHeights (canonicalArguments as) = argumentHeights as := by
      rw [canonicalArguments_eq]
      refine argumentHeights_map fun a ha => ?_
      cases a with
      | star => rfl
      | concrete t => exact iha t ha t.outerDims
    rw [reshaped, height, height, ihg, ha]

theorem height_canonical (t : Ty) : t.canonical.height = t.height := height_reshaped t _

/-- The arrays in the chain of a type can only be those that are visible. -/
theorem chainLength_le_chainDims {t : Ty} (h : ∀ e d, array e d ∈ t.visible → d ≠ 0) :
    t.chainLength ≤ t.chainDims := by
  induction t using Ty.inductionOn with
  | builtin k => exact le_rfl
  | array e d ih =>
    have hd := h e d (self_mem_visible _)
    have he := ih fun f c hf => h f c (mem_visible_array.2 (.inr hf))
    have hn : d.toNat ≠ 0 := fun hz => hd (UInt32.toNat_inj.1 hz)
    rw [chainLength, chainDims]
    omega
  | struct n fs ih => exact le_rfl
  | reference n => exact le_rfl
  | cone g as ihg iha => exact ihg fun f c hf => h f c (mem_visible_cone.2 (.inr (.inl hf)))

/-- Every array that is left of the element of an array, below the generic applications, has one
element. -/
def Flat (t : Ty) : Prop :=
  ∀ e d, array e d ∈ t.visible → ∀ f c, e.head = array f c → c = 1

theorem flat_array_iff {e : Ty} {d : UInt32} :
    (array e d).Flat ↔ (∀ f c, e.head = array f c → c = 1) ∧ e.Flat := by
  constructor
  · intro h
    exact ⟨h e d (self_mem_visible _), fun f c hf => h f c (mem_visible_array.2 (.inr hf))⟩
  · rintro ⟨he, h⟩ f c hf
    rcases mem_visible_array.1 hf with hf | hf
    · cases hf
      exact he
    · exact h f c hf

theorem flat_cone_iff {g : Ty} {as : List TypeArgument} :
    (cone g as).Flat ↔ g.Flat ∧ ∀ t, TypeArgument.concrete t ∈ as → t.Flat := by
  constructor
  · intro h
    exact ⟨fun f c hf => h f c (mem_visible_cone.2 (.inr (.inl hf))),
      fun t ht f c hf => h f c (mem_visible_cone.2 (.inr (.inr ⟨t, ht, hf⟩)))⟩
  · rintro ⟨hg, ha⟩ f c hf
    rcases mem_visible_cone.1 hf with hf | hf | ⟨t, ht, hf⟩
    · cases hf
    · exact hg f c hf
    · exact ha t ht f c hf

/-- In a chain of arrays of one element the dimensions count the arrays. -/
theorem Flat.chainDims_eq {t : Ty} (h : t.Flat) (ht : ∀ f c, t.head = array f c → c = 1) :
    t.chainDims = t.chainLength := by
  induction t using Ty.inductionOn with
  | builtin k => rfl
  | array e d ih =>
    obtain ⟨he, h⟩ := flat_array_iff.1 h
    have hd : d = 1 := ht e d rfl
    rw [chainDims, chainLength, ih h he, hd]
    rfl
  | struct n fs ih => rfl
  | reference n => rfl
  | cone g as ihg iha => exact ihg (flat_cone_iff.1 h).1 ht

theorem Flat.outerDims_eq {t e : Ty} {d : UInt32} (h : t.Flat) (ht : t.head = array e d) :
    t.outerDims = d := by
  induction t using Ty.inductionOn with
  | array f c ih =>
    obtain ⟨hf, hc⟩ := flat_array_iff.1 h
    cases ht
    rw [outerDims, chainDims, chainLength, hc.chainDims_eq hf, Nat.add_sub_cancel,
      Nat.add_sub_cancel_left, UInt32.ofNat_toNat]
  | cone g as ihg iha => exact ihg (flat_cone_iff.1 h).1 ht
  | builtin k => cases ht
  | struct n fs ih => cases ht
  | reference n => cases ht

/-- Reshaping changes nothing if and only if the outermost array has the dimensions it is to get,
and all that are directly in others have one. -/
theorem reshaped_eq_self_iff {t : Ty} {dims : UInt32} :
    t.reshaped dims = t ↔ (∀ e d, t.head = array e d → d = dims) ∧ t.Flat := by
  induction t using Ty.inductionOn generalizing dims with
  | builtin k => simp [reshaped, head, Flat, visible]
  | array e d ih =>
    rw [reshaped, array.injEq, ih, flat_array_iff]
    simp only [head, array.injEq]
    constructor
    · rintro ⟨h, rfl⟩
      exact ⟨fun f c hf => hf.2.symm, h⟩
    · rintro ⟨hd, h⟩
      exact ⟨h, (hd e d ⟨rfl, rfl⟩).symm⟩
  | struct n fs ih => simp [reshaped, head, Flat, visible]
  | reference n => simp [reshaped, head, Flat, visible]
  | cone g as ihg iha =>
    have hone : ∀ t, TypeArgument.concrete t ∈ as → (t.reshaped t.outerDims = t ↔ t.Flat) := by
      intro t ht
      rw [iha t ht]
      exact ⟨fun h => h.2, fun h => ⟨fun e d he => (h.outerDims_eq he).symm, h⟩⟩
    have ha : canonicalArguments as = as ↔ ∀ t, TypeArgument.concrete t ∈ as → t.Flat := by
      rw [canonicalArguments_eq, map_eq_self_iff]
      constructor
      · intro h t ht
        exact (hone t ht).1 (TypeArgument.concrete.inj (h _ ht))
      · intro h a ha
        cases a with
        | star => rfl
        | concrete t => exact congrArg TypeArgument.concrete ((hone t ha).2 (h t ha))
    rw [reshaped, cone.injEq, ihg, flat_cone_iff, ha, head, and_assoc]

theorem canonical_eq_self_iff {t : Ty} : t.canonical = t ↔ t.Flat := by
  rw [canonical, reshaped_eq_self_iff]
  exact ⟨fun h => h.2, fun h => ⟨fun e d ht => (h.outerDims_eq ht).symm, h⟩⟩

end NativeBridge.Ty
