import Mathlib.Data.List.TakeWhile
import NativeBridge.Name.Basic
import NativeBridge.Proofs.Basic

/-! # Names and their mangled forms

A valid name is its package, a dot and its short name, or its short name alone. A mangled form is
cut at its last underscore, so writing a name and reading it again are inverse to each other up to
dots and underscores in the package.
-/
namespace NativeBridge.SymbolName

/-- Without a mark the whole text follows. -/
theorem afterLast_eq_self {mark : Char} {cs : List Char} (h : mark ∉ cs) :
    afterLast mark cs = cs := by
  have hc := forall_ne_of_not_mem fun hm => h (List.mem_reverse.1 hm)
  rw [afterLast, List.takeWhile_eq_self_iff.2 hc, List.reverse_reverse]

theorem afterLast_append {mark : Char} {front tail : List Char} (h : mark ∉ tail) :
    afterLast mark (front ++ mark :: tail) = tail := by
  have hr : mark ∉ tail.reverse := fun hm => h (List.mem_reverse.1 hm)
  rw [afterLast, List.reverse_append, List.reverse_cons, List.append_assoc, List.singleton_append,
    takeWhile_append_mark hr, List.reverse_reverse]

/-- A text with a mark in it is divided by its last mark. -/
theorem exists_last {mark : Char} {cs : List Char} (h : mark ∈ cs) :
    ∃ front tail, cs = front ++ mark :: tail ∧ mark ∉ tail := by
  obtain ⟨as, bs, hcs, hn⟩ := List.eq_append_cons_of_mem (List.mem_reverse.2 h)
  refine ⟨bs.reverse, as.reverse, ?_, fun hm => hn (List.mem_reverse.1 hm)⟩
  rw [← List.reverse_reverse cs, hcs]
  simp

/-- What `afterLast` leaves out, the last mark included. -/
def upToLast (mark : Char) (cs : List Char) : List Char :=
  cs.take (cs.length - (afterLast mark cs).length)

theorem upToLast_append {mark : Char} {front tail : List Char} (h : mark ∉ tail) :
    upToLast mark (front ++ mark :: tail) = front ++ [mark] := by
  rw [upToLast, afterLast_append h, List.append_cons, List.length_append, Nat.add_sub_cancel,
    List.take_left]

theorem upToLast_append_afterLast (mark : Char) (cs : List Char) :
    upToLast mark cs ++ afterLast mark cs = cs := by
  by_cases h : mark ∈ cs
  · obtain ⟨front, tail, rfl, ht⟩ := exists_last h
    rw [upToLast_append ht, afterLast_append ht]
    simp
  · rw [upToLast, afterLast_eq_self h, Nat.sub_self, List.take_zero, List.nil_append]

/-- A mangled form with its package in underscores throughout. -/
def flattenPackage (cs : List Char) : List Char :=
  flattenDots (upToLast '_' cs) ++ afterLast '_' cs

theorem map_replace_eq_self {a b : Char} {cs : List Char} (h : a ∉ cs) :
    (cs.map fun c => if c = a then b else c) = cs := by
  rw [map_eq_self_iff]
  intro c hc
  rw [if_neg]
  rintro rfl
  exact h hc

theorem flattenPackage_eq_self {cs : List Char} (h : '.' ∉ upToLast '_' cs) :
    flattenPackage cs = cs := by
  rw [flattenPackage, flattenDots, map_replace_eq_self h, upToLast_append_afterLast]

theorem length_flattenPackage (cs : List Char) : (flattenPackage cs).length = cs.length := by
  rw [flattenPackage, flattenDots, List.length_append, List.length_map, ← List.length_append,
    upToLast_append_afterLast]

theorem flattenPackage_append {package short : List Char} (h : '_' ∉ short) :
    flattenPackage (package ++ '_' :: short) = flattenDots package ++ '_' :: short := by
  rw [flattenPackage, upToLast_append h, afterLast_append h]
  simp [flattenDots]

/-- Flattening brings in no character but the underscore. -/
theorem mem_of_mem_flattenDots {c : Char} {cs : List Char} (hc : c ≠ '_')
    (h : c ∈ flattenDots cs) : c ∈ cs := by
  obtain ⟨d, hd, rfl⟩ := List.mem_map.1 h
  by_cases hdot : d = '.'
  · simp [hdot] at hc
  · simpa [hdot] using hd

theorem mem_of_mem_flattenPackage {c : Char} {cs : List Char} (hc : c ≠ '_')
    (h : c ∈ flattenPackage cs) : c ∈ cs := by
  rw [← upToLast_append_afterLast '_' cs, List.mem_append]
  rcases List.mem_append.1 h with h | h
  · exact .inl (mem_of_mem_flattenDots hc h)
  · exact .inr h

theorem flattenDots_restoreDots (cs : List Char) : flattenDots (restoreDots cs) = flattenDots cs := by
  simp only [flattenDots, restoreDots, List.map_map]
  refine List.map_congr_left fun c _ => ?_
  by_cases h : c = '_'
  · simp [h]
  · simp [h]

theorem restoreDots_flattenDots (cs : List Char) : restoreDots (flattenDots cs) = restoreDots cs := by
  simp only [flattenDots, restoreDots, List.map_map]
  refine List.map_congr_left fun c _ => ?_
  by_cases h : c = '.'
  · simp [h]
  · simp [h]

/-- The name that a package and a short name make. -/
def ofParts (package short : List Char) : SymbolName :=
  ⟨String.ofList (join package short), String.ofList short⟩

theorem packageChars_ofParts (package short : List Char) :
    (ofParts package short).packageChars = package := by
  by_cases h : package = []
  · simp [h, ofParts, packageChars, join]
  · have hj : join package short = package ++ '.' :: short := by simp [join, h]
    have hn : package ++ '.' :: short ≠ short := by
      intro he
      have hl := congrArg List.length he
      simp only [List.length_append, List.length_cons] at hl
      omega
    have hl : (package ++ '.' :: short).length - short.length - 1 = package.length := by
      simp only [List.length_append, List.length_cons]
      omega
    simp only [ofParts, packageChars, hj, String.ofList_inj, hn, if_false, String.toList_ofList, hl]
    exact List.take_left

theorem isValid_ofParts (package short : List Char) : (ofParts package short).isValid = true := by
  by_cases h : package = []
  · simp [h, ofParts, isValid, join]
  · have hj : join package short = (package ++ ['.']) ++ short := by simp [join, h]
    have hl : ((package ++ ['.']) ++ short).length - short.length = (package ++ ['.']).length := by
      rw [List.length_append, Nat.add_sub_cancel]
    have hp : 1 < (package ++ ['.']).length := by
      have := List.length_pos_iff.2 h
      simp only [List.length_append, List.length_cons, List.length_nil]
      omega
    have ht : isTail (join package short) short = true := by
      rw [isTail, hj, hl, List.drop_left, List.take_left]
      simp only [beq_self_eq_true, decide_eq_true hp, Bool.true_and]
      simp
    simp [ofParts, isValid, ht]

/-- Every valid name is made of its package and its short name. -/
theorem full_eq_join {n : SymbolName} (h : n.isValid = true) :
    n.full.toList = join n.packageChars n.short.toList := by
  by_cases he : n.full = n.short
  · simp [packageChars, he, join]
  · simp only [isValid, beq_iff_eq, he, isTail, Bool.or_eq_true, Bool.and_eq_true,
      decide_eq_true_eq, false_or] at h
    obtain ⟨⟨hd, hf⟩, hl⟩ := h
    obtain ⟨package, hp⟩ := List.getLast?_eq_some_iff.1 hl
    have hfull := List.take_append_drop (n.full.toList.length - n.short.toList.length) n.full.toList
    rw [hd, hp] at hfull
    have hs : n.full.toList.length = package.length + 1 + n.short.toList.length := by
      rw [← hfull]
      simp only [List.length_append, List.length_cons, List.length_nil]
    have hk : n.full.toList.length - n.short.toList.length - 1 = package.length := by omega
    have hpackage : n.packageChars = package := by
      rw [packageChars, if_neg he, hk, ← hfull, List.append_assoc, List.take_left]
    have hne : package ≠ [] := by
      rintro rfl
      simp [hp] at hf
    rw [hpackage, ← hfull]
    simp [join, hne]

theorem eq_ofParts {n : SymbolName} (h : n.isValid = true) :
    n = ofParts n.packageChars n.short.toList := by
  rw [ofParts, ← full_eq_join h]
  simp

/-- A mangled form is read if and only if it has an underscore and does not end with one. -/
theorem ofMangled_eq_ok_iff {cs : List Char} {n : SymbolName} :
    ofMangled (String.ofList cs) = .ok n ↔ ∃ package short, cs = package ++ '_' :: short ∧
      '_' ∉ short ∧ short ≠ [] ∧ n = ofParts (restoreDots package) short := by
  have hread : ∀ package short, '_' ∉ short → short ≠ [] →
      ofMangled (String.ofList (package ++ '_' :: short)) =
        .ok (ofParts (restoreDots package) short) := by
    intro package short hu hs
    have hl : (package ++ '_' :: short).length - short.length - 1 = package.length := by
      simp only [List.length_append, List.length_cons]
      omega
    have hv : isValid ⟨String.ofList (join (restoreDots package) short), String.ofList short⟩ :=
      isValid_ofParts (restoreDots package) short
    simp only [ofMangled, String.toList_ofList, afterLast_append hu, hl, List.take_left, make, hv]
    simp [hs, ofParts]
  constructor
  · intro h
    by_cases hm : '_' ∈ cs
    · obtain ⟨package, short, rfl, hu⟩ := exists_last hm
      by_cases hs : short = []
      · subst hs
        have ha : afterLast '_' (package ++ ['_']) = [] := afterLast_append hu
        simp [ofMangled, ha] at h
      · rw [hread package short hu hs, Except.ok.injEq] at h
        exact ⟨package, short, rfl, hu, hs, h.symm⟩
    · simp [ofMangled, hm] at h
  · rintro ⟨package, short, rfl, hu, hs, rfl⟩
    exact hread package short hu hs

/-- A name is written as it was read, but for dots in the package. -/
theorem mangledChars_of_ofMangled {cs : List Char} {n : SymbolName}
    (h : ofMangled (String.ofList cs) = .ok n) : n.mangledChars = flattenPackage cs := by
  obtain ⟨package, short, rfl, hu, _, rfl⟩ := ofMangled_eq_ok_iff.1 h
  rw [mangledChars, packageChars_ofParts, flattenDots_restoreDots, flattenPackage_append hu]
  simp [ofParts]

/-- A name that was read is read again from what is written for it. -/
theorem ofMangled_mangledChars_of_ofMangled {cs : List Char} {n : SymbolName}
    (h : ofMangled (String.ofList cs) = .ok n) : ofMangled (String.ofList n.mangledChars) = .ok n := by
  rw [mangledChars_of_ofMangled h]
  obtain ⟨package, short, rfl, hu, hs, rfl⟩ := ofMangled_eq_ok_iff.1 h
  rw [flattenPackage_append hu]
  exact ofMangled_eq_ok_iff.2 ⟨flattenDots package, short, rfl, hu, hs, by rw [restoreDots_flattenDots]⟩

/-- The valid names whose last underscore in the mangled form is the one between package and short
name, and whose package has only dots to restore. -/
structure Reversible (n : SymbolName) : Prop where
  valid : n.isValid = true
  short_ne_nil : n.short.toList ≠ []
  short : '_' ∉ n.short.toList
  package : '_' ∉ n.packageChars

theorem Reversible.ofMangled_mangledChars {n : SymbolName} (h : n.Reversible) :
    ofMangled (String.ofList n.mangledChars) = .ok n := by
  refine ofMangled_eq_ok_iff.2
    ⟨flattenDots n.packageChars, n.short.toList, rfl, h.short, h.short_ne_nil, ?_⟩
  rw [restoreDots_flattenDots, restoreDots, map_replace_eq_self h.package]
  exact eq_ofParts h.valid

theorem mem_full_of_mem_mangledChars {n : SymbolName} {c : Char} (hv : n.isValid = true)
    (hc : c ≠ '_') (h : c ∈ n.mangledChars) : c ∈ n.full.toList := by
  rw [full_eq_join hv, join]
  rw [mangledChars, List.mem_append, List.mem_cons] at h
  rcases h with h | h | h
  · have hp := mem_of_mem_flattenDots hc h
    split
    · rename_i he
      rw [List.isEmpty_iff.1 he] at hp
      cases hp
    · exact List.mem_append_left _ hp
  · exact absurd h hc
  · split
    · exact h
    · simp [h]

end NativeBridge.SymbolName
