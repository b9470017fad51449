import NativeBridge.Proofs.Symbol.Reading

/-! # Representable symbols

A type is representable if its names are valid, its tree is not too high, its arrays have elements,
its applications have arguments and its aggregates have a size; a symbol is if its types are and
the names of its places are valid. Together with lengths that the encoding can state this is what
being read as it is amounts to.
-/
namespace NativeBridge
open Wire

namespace Ty

/-- The names of a type and of the types inside it. -/
def names (t : Ty) : List SymbolName := t.nodes.filterMap ownName?

/-- The lengths that the encoding of a type states. -/
def lengths (t : Ty) : List Nat := t.nodes.flatMap ownLengths

structure Representable (t : Ty) : Prop where
  names : ∀ n ∈ t.names, n.isValid = true
  height : t.height ≤ maxNesting
  dims : ∀ e d, array e d ∈ t.nodes → d ≠ 0
  arguments : ∀ g as, cone g as ∈ t.nodes → as ≠ []
  sizes : ∀ u ∈ t.nodes, u.isAggregate = true → u.checkedSize ≠ none

theorem outermost_fixes_iff {t : Ty} :
    outermost.Fixes t ↔ (∀ l ∈ t.lengths, l ≤ maxLength) ∧ t.Representable := by
  constructor
  · rintro ⟨⟨hr, hh⟩, hv⟩
    refine ⟨?_, ⟨?_, hh, ?_, ?_, fun u hu => (hr u hu).size⟩⟩
    · intro l hl
      obtain ⟨u, hu, hl⟩ := List.mem_flatMap.1 hl
      exact (hr u hu).lengths l hl
    · intro n hn
      obtain ⟨u, hu, hn⟩ := List.mem_filterMap.1 hn
      exact (hr u hu).name n hn
    · exact fun e d hm => (hr _ hm).dims e d rfl
    · change t.pruned = t at hv
      rw [← hv]
      exact applied_pruned t
  · rintro ⟨hl, h⟩
    refine ⟨⟨?_, h.height⟩, pruned_eq_self h.arguments⟩
    intro u hu
    refine ⟨?_, ?_, ?_, h.sizes u hu⟩
    · exact fun l hm => hl l (List.mem_flatMap.2 ⟨u, hu, hm⟩)
    · exact fun n hm => h.names n (List.mem_filterMap.2 ⟨u, hu, hm⟩)
    · rintro e d rfl
      exact h.dims e d hu

theorem stable_format (budget : Nat) : (format budget).Stable := fun t h =>
  ⟨⟨h.1.pruned, (height_pruned_le t).trans h.2⟩, pruned_pruned t⟩

end Ty

namespace SymbolInfo

def lengths (i : SymbolInfo) : List Nat := i.name.lengths ++ [i.file.utf8ByteSize]

theorem admits_iff {i : SymbolInfo} :
    format.Admits i ↔ (∀ l ∈ i.lengths, l ≤ maxLength) ∧ i.name.isValid = true := by
  simp only [format, SymbolName.format, lengths, List.mem_append, List.mem_singleton]
  constructor
  · rintro ⟨⟨hv, hn⟩, hf⟩
    refine ⟨?_, hv⟩
    rintro l (hl | rfl)
    · exact hn l hl
    · exact hf
  · rintro ⟨hl, hv⟩
    exact ⟨⟨hv, fun l hm => hl l (.inl hm)⟩, hl _ (.inr rfl)⟩

end SymbolInfo

namespace Signature

/-- The types of a signature in the order of its encoding. -/
def types (s : Signature) : List Ty :=
  s.returns :: (s.parameters ++ s.dispatch.toList ++ s.extension.toList ++ s.contexts)

theorem fixes_iff {s : Signature} : format.Fixes s ↔ s.parameters.length ≤ maxLength ∧
    s.contexts.length ≤ maxLength ∧ ∀ t ∈ s.types, Ty.outermost.Fixes t := by
  have hp : format.Fixes s ↔ Ty.outermost.Fixes s.returns ∧
      Ty.outermost.list.Fixes s.parameters ∧ Ty.outermost.optional.Fixes s.dispatch ∧
      Ty.outermost.optional.Fixes s.extension ∧ Ty.outermost.list.Fixes s.contexts := by
    cases s
    simp only [Format.Fixes, format, pruned, mk.injEq]
    simp only [Format.list, Format.optional, Ty.format]
    tauto
  rw [hp]
  simp only [Format.list_fixes_iff, Format.optional_fixes_iff, types, List.mem_cons,
    List.mem_append, Option.mem_toList]
  constructor
  · rintro ⟨hr, ⟨hpl, hps⟩, hd, he, hcl, hcs⟩
    refine ⟨hpl, hcl, ?_⟩
    rintro t (rfl | ((hm | hm) | hm) | hm)
    · exact hr
    · exact hps t hm
    · exact hd t hm
    · exact he t hm
    · exact hcs t hm
  · rintro ⟨hpl, hcl, h⟩
    exact ⟨h _ (.inl rfl), ⟨hpl, fun t hm => h t (.inr (.inl (.inl (.inl hm))))⟩,
      fun t hm => h t (.inr (.inl (.inl (.inr hm)))), fun t hm => h t (.inr (.inl (.inr hm))), hcl,
      fun t hm => h t (.inr (.inr hm))⟩

theorem stable_format : format.Stable := by
  intro s hs
  have h := Ty.stable_format maxNesting
  have h1 := h hs.1
  have h2 := h.list hs.2.1
  have h3 := h.optional hs.2.2.1
  have h4 := h.optional hs.2.2.2.1
  have h5 := h.list hs.2.2.2.2
  refine ⟨⟨h1.1, h2.1, h3.1, h4.1, h5.1⟩, ?_⟩
  change s.pruned.pruned = s.pruned
  rw [pruned, mk.injEq]
  exact ⟨h1.2, h2.2, h3.2, h4.2, h5.2⟩

end Signature

namespace SymbolVariant

def types : SymbolVariant → List Ty
  | function s => s.types
  | .managedClass => []
  | struct fields => fields

/-- The lengths that a variant states itself. -/
def lengths : SymbolVariant → List Nat
  | function s => [s.parameters.length, s.contexts.length]
  | .managedClass => []
  | struct fields => [fields.length]

theorem admits_and_pruned_iff {v : SymbolVariant} : v.Admits ∧ v.pruned = v ↔
    (∀ l ∈ v.lengths, l ≤ maxLength) ∧ ∀ t ∈ v.types, Ty.outermost.Fixes t := by
  cases v with
  | function s =>
    have h := Signature.fixes_iff (s := s)
    simp only [Admits, pruned, function.injEq, lengths, types, List.mem_cons, List.not_mem_nil,
      or_false, forall_eq_or_imp, forall_eq]
    rw [and_assoc]
    exact h
  | managedClass => simp [Admits, pruned, lengths, types]
  | struct fields =>
    have h : Ty.outermost.list.Fixes fields ↔ _ := Format.list_fixes_iff
    simp only [Admits, pruned, struct.injEq, lengths, types, List.mem_singleton, forall_eq]
    exact h

theorem Admits.pruned {v : SymbolVariant} (h : v.Admits) :
    v.pruned.Admits ∧ v.pruned.pruned = v.pruned := by
  cases v with
  | function s =>
    have hs := Signature.stable_format h
    exact ⟨hs.1, congrArg function hs.2⟩
  | managedClass => exact ⟨trivial, rfl⟩
  | struct fields =>
    have hs := (Ty.stable_format maxNesting).list h
    exact ⟨hs.1, congrArg struct hs.2⟩

end SymbolVariant

namespace Symbol

/-- The places that a symbol names: its own and that of the symbol it was specialized from. -/
def places (s : Symbol) : List SymbolInfo := s.info :: s.origin.toList

def types (s : Symbol) : List Ty := s.typeArguments ++ s.variant.types

/-- The lengths that the encoding of a symbol states. -/
def lengths (s : Symbol) : List Nat :=
  s.places.flatMap SymbolInfo.lengths ++ s.typeArguments.length :: s.variant.lengths ++
    s.types.flatMap Ty.lengths

structure Representable (s : Symbol) : Prop where
  names : ∀ i ∈ s.places, i.name.isValid = true
  types : ∀ t ∈ s.types, t.Representable

theorem fixes_iff {s : Symbol} :
    format.Fixes s ↔ (∀ l ∈ s.lengths, l ≤ maxLength) ∧ s.Representable := by
  have hp : format.Fixes s ↔ (∀ i ∈ s.places, SymbolInfo.format.Admits i) ∧
      Ty.outermost.list.Fixes s.typeArguments ∧ s.variant.Admits ∧ s.variant.pruned = s.variant := by
    cases s
    simp only [Format.Fixes, format, pruned, mk.injEq, true_and, places, List.forall_mem_cons,
      Option.mem_toList]
    simp only [Format.list, Format.optional, Ty.format]
    tauto
  rw [hp, Format.list_fixes_iff, SymbolVariant.admits_and_pruned_iff]
  simp only [SymbolInfo.admits_iff, Ty.outermost_fixes_iff, lengths, List.mem_append,
    List.mem_flatMap, List.mem_cons]
  constructor
  · rintro ⟨hi, ⟨hl, ht⟩, hv, hw⟩
    refine ⟨?_, fun i hm => (hi i hm).2, ?_⟩
    · rintro l ((⟨i, hm, h⟩ | rfl | h) | ⟨t, hm, h⟩)
      · exact (hi i hm).1 l h
      · exact hl
      · exact hv l h
      · rcases List.mem_append.1 hm with hm | hm
        · exact (ht t hm).1 l h
        · exact (hw t hm).1 l h
    · intro t hm
      rcases List.mem_append.1 hm with hm | hm
      · exact (ht t hm).2
      · exact (hw t hm).2
  · rintro ⟨hl, hn, ht⟩
    refine ⟨?_, ⟨hl _ (.inl (.inr (.inl rfl))), ?_⟩, ?_, ?_⟩
    · exact fun i hm => ⟨fun l h => hl l (.inl (.inl ⟨i, hm, h⟩)), hn i hm⟩
    · intro t hm
      have hm' : t ∈ s.types := List.mem_append_left _ hm
      exact ⟨fun l h => hl l (.inr ⟨t, hm', h⟩), ht t hm'⟩
    · exact fun l h => hl l (.inl (.inr (.inr h)))
    · intro t hm
      have hm' : t ∈ s.types := List.mem_append_right _ hm
      exact ⟨fun l h => hl l (.inr ⟨t, hm', h⟩), ht t hm'⟩

theorem stable_format : format.Stable := by
  intro s hs
  have ha := (Ty.stable_format maxNesting).list hs.2.2.1
  obtain ⟨hv, hw⟩ := hs.2.2.2.pruned
  refine ⟨⟨hs.1, hs.2.1, ha.1, hv⟩, ?_⟩
  change s.pruned.pruned = s.pruned
  rw [pruned, mk.injEq]
  exact ⟨rfl, rfl, rfl, ha.2, hw⟩

end Symbol

namespace SymbolTable

def pruned (t : SymbolTable) : SymbolTable := ⟨t.symbols.map Symbol.pruned⟩

def format : Format SymbolTable where
  bytes := encode
  ids t := Symbol.format.list.ids t.symbols
  Admits t := Symbol.format.list.Admits t.symbols
  value := pruned

/-- The lengths that the encoding of a table states. -/
def lengths (t : SymbolTable) : List Nat :=
  t.symbols.length :: t.symbols.flatMap Symbol.lengths

def Representable (t : SymbolTable) : Prop := ∀ s ∈ t.symbols, s.Representable

theorem reads_decoder : decoder.Reads 0 format := by
  intro r s t hr
  simp only [decoder, Run.bind_eq_ok_iff, Run.pure_eq_ok_iff]
  constructor
  · rintro ⟨_, u, hl, rfl, rfl⟩
    obtain ⟨symbols, ha, rfl, hp⟩ := (Symbol.reads_decoder.list hr).1 hl
    exact ⟨⟨symbols⟩, ha, rfl, hp⟩
  · rintro ⟨u, ha, rfl, hp⟩
    exact ⟨_, s, (Symbol.reads_decoder.list hr).2 ⟨u.symbols, ha, rfl, hp⟩, rfl, rfl⟩

theorem fixes_iff_list {t : SymbolTable} : format.Fixes t ↔ Symbol.format.list.Fixes t.symbols := by
  cases t
  simp only [Format.Fixes, format, pruned, mk.injEq]
  rfl

theorem fixes_iff {t : SymbolTable} :
    format.Fixes t ↔ (∀ l ∈ t.lengths, l ≤ maxLength) ∧ t.Representable := by
  rw [fixes_iff_list, Format.list_fixes_iff]
  simp only [Symbol.fixes_iff, lengths, Representable, List.forall_mem_cons, List.mem_flatMap]
  constructor
  · rintro ⟨hl, h⟩
    exact ⟨⟨hl, fun l ⟨s, hm, hs⟩ => (h s hm).1 l hs⟩, fun s hm => (h s hm).2⟩
  · rintro ⟨⟨hl, h⟩, hr⟩
    exact ⟨hl, fun s hm => ⟨fun l hs => h l ⟨s, hm, hs⟩, hr s hm⟩⟩

theorem stable_format : format.Stable := fun _ h =>
  fixes_iff_list.2 (Symbol.stable_format.list h)

theorem delimited_format : format.Delimited := by
  intro t u r s ht hu h
  obtain ⟨hs, hr⟩ := Symbol.delimited_format.list ht hu h
  exact ⟨congrArg mk hs, hr⟩

end SymbolTable

end NativeBridge
