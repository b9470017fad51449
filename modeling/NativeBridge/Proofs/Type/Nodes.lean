import Mathlib.Data.Nat.Order.Lemmas
import Mathlib.Order.MinMax
import NativeBridge.Proofs.Basic
import NativeBridge.Type.Encoding

/-! # The parts of a type

The types inside a type, with the induction over them, and the tree that is left when every
application to no arguments is replaced by its generic. Leaving those out changes no size, and no
tree gets higher by it.
-/
namespace NativeBridge

namespace Ty

/-- A property of all types follows from one step for each constructor, with the property at hand
for every type in a list of parts. -/
@[elab_as_elim]
theorem inductionOn {p : Ty → Prop} (t : Ty) (builtin : ∀ k, p (builtin k))
    (array : ∀ e d, p e → p (array e d))
    (struct : ∀ n fs, (∀ f ∈ fs, p f) → p (struct n fs)) (reference : ∀ n, p (reference n))
    (cone : ∀ g as, p g → (∀ t, TypeArgument.concrete t ∈ as → p t) → p (cone g as)) : p t :=
  @Ty.rec p (fun a => ∀ t, a = .concrete t → p t) (fun fs => ∀ f ∈ fs, p f)
    (fun as => ∀ t, TypeArgument.concrete t ∈ as → p t)
    builtin array struct reference cone
    (fun _ h => nomatch h) (fun _ ih _ h => TypeArgument.concrete.inj h ▸ ih)
    (fun _ h => nomatch h)
    (fun _ _ head tail f hf => (List.mem_cons.1 hf).elim (fun h => h ▸ head) (tail f))
    (fun _ h => nomatch h)
    (fun _ _ head tail t ht => (List.mem_cons.1 ht).elim (fun h => head t h.symm) (tail t)) t

mutual

/-- A type and the types inside it, each before its parts. -/
def nodes : Ty → List Ty
  | builtin k => [builtin k]
  | array e d => array e d :: nodes e
  | struct n fs => struct n fs :: nodesOfAll fs
  | reference n => [reference n]
  | cone g as => cone g as :: (nodes g ++ nodesOfArguments as)

def nodesOfAll : List Ty → List Ty
  | [] => []
  | t :: ts => nodes t ++ nodesOfAll ts

def nodesOfArgument : TypeArgument → List Ty
  | .star => []
  | .concrete t => nodes t

def nodesOfArguments : List TypeArgument → List Ty
  | [] => []
  | a :: as => nodesOfArgument a ++ nodesOfArguments as

end

theorem nodesOfAll_eq (ts : List Ty) : nodesOfAll ts = ts.flatMap nodes := by
  induction ts with
  | nil => rfl
  | cons t ts ih => rw [nodesOfAll, ih, List.flatMap_cons]

theorem nodesOfArguments_eq (as : List TypeArgument) :
    nodesOfArguments as = as.flatMap nodesOfArgument := by
  induction as with
  | nil => rfl
  | cons a as ih => rw [nodesOfArguments, ih, List.flatMap_cons]

theorem self_mem_nodes (t : Ty) : t ∈ t.nodes := by cases t <;> simp [nodes]

theorem mem_nodes_array {u e : Ty} {d : UInt32} :
    u ∈ (array e d).nodes ↔ u = array e d ∨ u ∈ e.nodes := by simp [nodes]

theorem mem_nodes_struct {u : Ty} {n : SymbolName} {fs : List Ty} :
    u ∈ (struct n fs).nodes ↔ u = struct n fs ∨ ∃ f ∈ fs, u ∈ f.nodes := by
  simp [nodes, nodesOfAll_eq]

theorem mem_nodesOfArguments {u : Ty} {as : List TypeArgument} :
    u ∈ nodesOfArguments as ↔ ∃ t, TypeArgument.concrete t ∈ as ∧ u ∈ t.nodes := by
  rw [nodesOfArguments_eq, List.mem_flatMap]
  constructor
  · rintro ⟨a, ha, hu⟩
    cases a with
    | star => simp [nodesOfArgument] at hu
    | concrete t => exact ⟨t, ha, hu⟩
  · rintro ⟨t, ha, hu⟩
    exact ⟨.concrete t, ha, hu⟩

theorem mem_nodes_cone {u g : Ty} {as : List TypeArgument} :
    u ∈ (cone g as).nodes ↔ u = cone g as ∨ u ∈ g.nodes ∨
      ∃ t, TypeArgument.concrete t ∈ as ∧ u ∈ t.nodes := by
  simp [nodes, mem_nodesOfArguments]

theorem heights_le_iff {ts : List Ty} {b : Nat} : heights ts ≤ b ↔ ∀ t ∈ ts, t.height ≤ b := by
  induction ts with
  | nil => simp [heights]
  | cons t ts ih => simp [heights, ih]

theorem argumentHeights_le_iff {as : List TypeArgument} {b : Nat} :
    argumentHeights as ≤ b ↔ ∀ t, TypeArgument.concrete t ∈ as → t.height ≤ b := by
  induction as with
  | nil => simp [argumentHeights]
  | cons a as ih =>
    cases a with
    | star => simp [argumentHeights, argumentHeight, ih]
    | concrete u =>
      simp only [argumentHeights, argumentHeight, max_le_iff, ih, List.mem_cons,
        TypeArgument.concrete.injEq]
      constructor
      · rintro ⟨hu, h⟩ t (rfl | ht)
        · exact hu
        · exact h t ht
      · intro h
        exact ⟨h u (.inl rfl), fun t ht => h t (.inr ht)⟩

mutual

/-- The tree without the applications to no arguments in it. -/
def pruned : Ty → Ty
  | builtin k => builtin k
  | array e d => array (pruned e) d
  | struct n fs => struct n (prunedAll fs)
  | reference n => reference n
  | cone g as => apply (pruned g) (prunedArguments as)

def prunedAll : List Ty → List Ty
  | [] => []
  | t :: ts => pruned t :: prunedAll ts

def prunedArgument : TypeArgument → TypeArgument
  | .star => .star
  | .concrete t => .concrete (pruned t)

def prunedArguments : List TypeArgument → List TypeArgument
  | [] => []
  | a :: as => prunedArgument a :: prunedArguments as

end

theorem prunedAll_eq (ts : List Ty) : prunedAll ts = ts.map pruned := by
  induction ts with
  | nil => rfl
  | cons t ts ih => rw [prunedAll, ih, List.map_cons]

theorem prunedArguments_eq (as : List TypeArgument) :
    prunedArguments as = as.map prunedArgument := by
  induction as with
  | nil => rfl
  | cons a as ih => rw [prunedArguments, ih, List.map_cons]

@[simp] theorem prunedArguments_eq_nil_iff {as : List TypeArgument} :
    prunedArguments as = [] ↔ as = [] := by simp [prunedArguments_eq]

theorem pruned_cone_nil (g : Ty) : (cone g []).pruned = g.pruned := by
  simp [pruned, prunedArguments, apply]

theorem pruned_cone {g : Ty} {as : List TypeArgument} (h : as ≠ []) :
    (cone g as).pruned = cone g.pruned (prunedArguments as) := by
  simp [pruned, apply, h]

theorem concrete_mem_prunedArguments {u : Ty} {as : List TypeArgument} :
    TypeArgument.concrete u ∈ prunedArguments as ↔
      ∃ t, TypeArgument.concrete t ∈ as ∧ t.pruned = u := by
  rw [prunedArguments_eq, List.mem_map]
  constructor
  · rintro ⟨a, ha, hu⟩
    cases a with
    | star => simp [prunedArgument] at hu
    | concrete t => exact ⟨t, ha, TypeArgument.concrete.inj hu⟩
  · rintro ⟨t, ht, rfl⟩
    exact ⟨.concrete t, ht, rfl⟩

theorem checkedTotal_congr {α : Type} {f g : α → Ty} {xs : List α} {total : Nat}
    (h : ∀ x ∈ xs, (f x).checkedSize = (g x).checkedSize) :
    checkedTotal total (xs.map f) = checkedTotal total (xs.map g) := by
  induction xs generalizing total with
  | nil => rfl
  | cons x xs ih =>
    simp only [List.map_cons, checkedTotal, h x (by simp), ih fun y hy => h y (by simp [hy])]

/-- An application has the size of its generic, so its absence is not felt. -/
@[simp] theorem checkedSize_pruned (t : Ty) : t.pruned.checkedSize = t.checkedSize := by
  induction t using Ty.inductionOn with
  | builtin k => rfl
  | array e d ih => simp only [pruned, checkedSize, ih]
  | struct n fs ih =>
    simp only [pruned, checkedSize, prunedAll_eq]
    simpa using checkedTotal_congr (g := id) ih
  | reference n => rfl
  | cone g as ihg _ =>
    by_cases h : as = []
    · rw [h, pruned_cone_nil, ihg, checkedSize]
    · rw [pruned_cone h, checkedSize, checkedSize, ihg]

theorem height_pruned_le (t : Ty) : t.pruned.height ≤ t.height := by
  induction t using Ty.inductionOn with
  | builtin k => exact le_rfl
  | array e d ih =>
    simp only [pruned, height]
    omega
  | struct n fs ih =>
    simp only [pruned, height, prunedAll_eq]
    have h : heights (fs.map pruned) ≤ heights fs := by
      rw [heights_le_iff]
      intro u hu
      obtain ⟨t, ht, rfl⟩ := List.mem_map.1 hu
      exact (ih t ht).trans (heights_le_iff.1 le_rfl t ht)
    omega
  | reference n => exact le_rfl
  | cone g as ihg iha =>
    by_cases h : as = []
    · rw [h, pruned_cone_nil]
      simp only [height]
      omega
    · rw [pruned_cone h]
      simp only [height]
      have hs : argumentHeights (prunedArguments as) ≤ argumentHeights as := by
        rw [argumentHeights_le_iff]
        intro u hu
        obtain ⟨t, ht, rfl⟩ := concrete_mem_prunedArguments.1 hu
        exact (iha t ht).trans (argumentHeights_le_iff.1 le_rfl t ht)
      omega

/-- Every part of the pruned tree is the pruned form of a part that is no empty application. -/
theorem mem_nodes_pruned {u t : Ty} (h : u ∈ t.pruned.nodes) :
    ∃ v ∈ t.nodes, v.pruned = u ∧ ∀ g, v ≠ cone g [] := by
  induction t using Ty.inductionOn with
  | builtin k =>
    simp only [pruned, nodes, List.mem_singleton] at h
    exact ⟨builtin k, self_mem_nodes _, h.symm, by simp⟩
  | array e d ih =>
    rw [pruned, mem_nodes_array] at h
    rcases h with rfl | h
    · exact ⟨array e d, self_mem_nodes _, rfl, by simp⟩
    · obtain ⟨v, hv, hu⟩ := ih h
      exact ⟨v, mem_nodes_array.2 (.inr hv), hu⟩
  | struct n fs ih =>
    rw [pruned, mem_nodes_struct, prunedAll_eq] at h
    rcases h with rfl | ⟨f, hf, h⟩
    · exact ⟨struct n fs, self_mem_nodes _, by rw [pruned, prunedAll_eq], by simp⟩
    · obtain ⟨t, ht, rfl⟩ := List.mem_map.1 hf
      obtain ⟨v, hv, hu⟩ := ih t ht h
      exact ⟨v, mem_nodes_struct.2 (.inr ⟨t, ht, hv⟩), hu⟩
  | reference n =>
    simp only [pruned, nodes, List.mem_singleton] at h
    exact ⟨reference n, self_mem_nodes _, h.symm, by simp⟩
  | cone g as ihg iha =>
    have hg : u ∈ g.pruned.nodes → ∃ v ∈ (cone g as).nodes, v.pruned = u ∧ ∀ g, v ≠ cone g [] := by
      intro h
      obtain ⟨v, hv, hu⟩ := ihg h
      exact ⟨v, mem_nodes_cone.2 (.inr (.inl hv)), hu⟩
    by_cases ha : as = []
    · rw [ha, pruned_cone_nil] at h
      exact hg h
    · rw [pruned_cone ha, mem_nodes_cone] at h
      rcases h with rfl | h | ⟨w, hw, h⟩
      · exact ⟨cone g as, self_mem_nodes _, pruned_cone ha, by simp [ha]⟩
      · exact hg h
      · obtain ⟨t, ht, rfl⟩ := concrete_mem_prunedArguments.1 hw
        obtain ⟨v, hv, hu⟩ := iha t ht h
        exact ⟨v, mem_nodes_cone.2 (.inr (.inr ⟨t, ht, hv⟩)), hu⟩

/-- No application to no arguments is in the tree. -/
def Applied (t : Ty) : Prop := ∀ g as, cone g as ∈ t.nodes → as ≠ []

theorem applied_pruned (t : Ty) : t.pruned.Applied := by
  intro g as h ha
  subst ha
  obtain ⟨v, _, hv, hn⟩ := mem_nodes_pruned h
  cases v with
  | cone g' as' =>
    by_cases ha : as' = []
    · exact hn g' (by rw [ha])
    · rw [pruned_cone ha] at hv
      simp [ha] at hv
  | _ => simp [pruned] at hv

theorem pruned_eq_self {t : Ty} (h : t.Applied) : t.pruned = t := by
  induction t using Ty.inductionOn with
  | builtin k => rfl
  | array e d ih =>
    rw [pruned, ih fun g as hm => h g as (mem_nodes_array.2 (.inr hm))]
  | struct n fs ih =>
    have hf : ∀ f ∈ fs, f.pruned = f := fun f hf =>
      ih f hf fun g as hm => h g as (mem_nodes_struct.2 (.inr ⟨f, hf, hm⟩))
    rw [pruned, prunedAll_eq, map_eq_self_iff.2 hf]
  | reference n => rfl
  | cone g as ihg iha =>
    have hg := ihg fun g as hm => h g as (mem_nodes_cone.2 (.inr (.inl hm)))
    have ha : ∀ a ∈ as, prunedArgument a = a := by
      intro a ha
      cases a with
      | star => rfl
      | concrete t =>
        have ht := iha t ha fun g as hm => h g as (mem_nodes_cone.2 (.inr (.inr ⟨t, ha, hm⟩)))
        rw [prunedArgument, ht]
    rw [pruned_cone (h g as (self_mem_nodes _)), hg, prunedArguments_eq,
      map_eq_self_iff.2 ha]

@[simp] theorem pruned_pruned (t : Ty) : t.pruned.pruned = t.pruned :=
  pruned_eq_self (applied_pruned t)

end Ty

end NativeBridge
