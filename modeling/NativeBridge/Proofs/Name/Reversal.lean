import NativeBridge.Proofs.Name.Parts

/-! # Which names mangling can be reversed for

A mangled form is cut at its last underscore. So the parts that were joined are found again if and
only if the short name is there and neither part has an underscore of its own. A text is refused
only for want of an underscore or of a short name behind it; the parts of any other make a valid
name, whose mangled form is the text with its package in underscores throughout.
-/
namespace NativeBridge.SymbolName

theorem not_mem_restoreDots (cs : List Char) : '_' ∉ restoreDots cs := by
  intro h
  obtain ⟨c, _, hc⟩ := List.mem_map.1 h
  split at hc
  · simp at hc
  · contradiction

theorem ofMangled_mangled_eq_ok_iff {n : SymbolName} (hv : n.isValid = true) :
    ofMangled n.mangled = .ok n ↔
      n.short ≠ "" ∧ '_' ∉ n.short.toList ∧ '_' ∉ n.package.toList := by
  rw [ne_eq, ← String.toList_eq_nil_iff, package, String.toList_ofList]
  constructor
  · intro h
    obtain ⟨package, short, _, hu, hs, hn⟩ := ofMangled_eq_ok_iff.1 h
    have hshort : n.short.toList = short := by rw [hn, ofParts, String.toList_ofList]
    have hpackage : n.packageChars = restoreDots package := by rw [hn, packageChars_ofParts]
    rw [hshort, hpackage]
    exact ⟨hs, hu, not_mem_restoreDots package⟩
  · rintro ⟨hs, hu, hp⟩
    exact Reversible.ofMangled_mangledChars ⟨hv, hs, hu, hp⟩

/-- A text is unmangled unless it has no underscore or ends with one. -/
theorem ofMangled_cases (cs : List Char) :
    ('_' ∉ cs ∧ ofMangled (String.ofList cs) = .error (.missingSeparator (String.ofList cs))) ∨
      (cs.getLast? = some '_' ∧
        ofMangled (String.ofList cs) = .error (.emptyShortName (String.ofList cs))) ∨
      ('_' ∈ cs ∧ cs.getLast? ≠ some '_' ∧ ∃ n, ofMangled (String.ofList cs) = .ok n) := by
  by_cases hm : '_' ∈ cs
  · obtain ⟨package, short, rfl, hu⟩ := exists_last hm
    by_cases hs : short = []
    · subst hs
      have ha : afterLast '_' (package ++ ['_']) = [] := afterLast_append hu
      exact .inr (.inl ⟨by simp, by simp [ofMangled, ha]⟩)
    · have hl : (package ++ '_' :: short).getLast? = short.getLast? := by
        rw [List.append_cons, List.getLast?_append_of_ne_nil _ hs]
      refine .inr (.inr ⟨hm, ?_, _, ofMangled_eq_ok_iff.2 ⟨package, short, rfl, hu, hs, rfl⟩⟩)
      rw [hl]
      exact fun h => hu (List.mem_of_getLast? h)
  · exact .inl ⟨hm, by simp [ofMangled, hm]⟩

theorem exists_ofMangled_iff (s : String) :
    (∃ n, ofMangled s = .ok n) ↔ '_' ∈ s.toList ∧ s.toList.getLast? ≠ some '_' := by
  have h := ofMangled_cases s.toList
  rw [String.ofList_toList] at h
  rcases h with ⟨hm, he⟩ | ⟨hl, he⟩ | ⟨hm, hl, hn⟩
  · simp [he, hm]
  · simp [he, hl]
  · exact iff_of_true hn ⟨hm, hl⟩

theorem ofMangled_ne_suffixMismatch (s full short : String) :
    ofMangled s ≠ .error (.suffixMismatch full short) := by
  have h := ofMangled_cases s.toList
  rw [String.ofList_toList] at h
  rcases h with ⟨_, he⟩ | ⟨_, he⟩ | ⟨_, _, n, he⟩
  · simp [he]
  · simp [he]
  · simp [he]

theorem mangled_of_ofMangled {s : String} {n : SymbolName} (h : ofMangled s = .ok n) :
    ∃ front tail, s.toList = front ++ '_' :: tail ∧ '_' ∉ tail ∧
      n.mangled.toList = flattenDots front ++ '_' :: tail := by
  rw [← String.ofList_toList (s := s)] at h
  obtain ⟨front, tail, hs, hu, _⟩ := ofMangled_eq_ok_iff.1 h
  refine ⟨front, tail, hs, hu, ?_⟩
  rw [mangled, String.toList_ofList, mangledChars_of_ofMangled h, hs, flattenPackage_append hu]

/-- Mangling is reversed for the names without underscores, and unmangling up to dots in the
package. -/
theorem mangled_reversal :
    (∀ n : SymbolName, n.mangled = "_".intercalate n.packageSegments ++ "_" ++ n.short) ∧
      (∀ full short n, make full short = .ok n → (ofMangled n.mangled = .ok n ↔
        n.short ≠ "" ∧ '_' ∉ n.short.toList ∧ '_' ∉ n.package.toList)) ∧
      ∀ s : String,
        ((∃ n, ofMangled s = .ok n) ↔ '_' ∈ s.toList ∧ s.toList.getLast? ≠ some '_') ∧
        (∀ full short, ofMangled s ≠ .error (.suffixMismatch full short)) ∧
        ∀ n, ofMangled s = .ok n →
          (∃ front tail, s.toList = front ++ '_' :: tail ∧ '_' ∉ tail ∧
            n.mangled.toList = (front.map fun c => if c = '.' then '_' else c) ++ '_' :: tail) ∧
          ofMangled n.mangled = .ok n := by
  refine ⟨mangled_eq_intercalate, fun full short n h => ?_, fun s => ⟨exists_ofMangled_iff s,
    ofMangled_ne_suffixMismatch s, fun n h => ⟨mangled_of_ofMangled h, ?_⟩⟩⟩
  · exact ofMangled_mangled_eq_ok_iff (make_eq_ok_iff.1 h).2
  · rw [← String.ofList_toList (s := s)] at h
    exact ofMangled_mangledChars_of_ofMangled h

/-- A package of empty segments and a short name with a dot, and a text with dots on both sides of
its last underscore. -/
theorem mangled_reversal_dotted :
    let n : SymbolName := ⟨"..ä.b", "ä.b"⟩
    let m : SymbolName := ⟨"x.y.z.ä.w", "ä.w"⟩
    make "..ä.b" "ä.b" = .ok n ∧ n.mangled = "__ä.b" ∧ ofMangled n.mangled = .ok n ∧
      make "a_b.c" "c" = .ok ⟨"a_b.c", "c"⟩ ∧
      ofMangled (mangled ⟨"a_b.c", "c"⟩) ≠ .ok ⟨"a_b.c", "c"⟩ ∧
      ofMangled "x.y_z_ä.w" = .ok m ∧ m.mangled = "x_y_z_ä.w" ∧ ofMangled m.mangled = .ok m := by
  intro n m
  obtain ⟨_, hmake, htext⟩ := mangled_reversal
  have hn : make "..ä.b" "ä.b" = .ok n := by decide
  have hu : make "a_b.c" "c" = .ok ⟨"a_b.c", "c"⟩ := by decide
  have hm : ofMangled "x.y_z_ä.w" = .ok m := by decide
  refine ⟨hn, by decide, (hmake _ _ n hn).2 (by decide), hu, ?_, hm, by decide, ?_⟩
  · rw [ne_eq, hmake _ _ _ hu]
    decide
  · exact ((htext "x.y_z_ä.w").2.2 m hm).2

end NativeBridge.SymbolName
