import NativeBridge.Proofs.Mangling.Completeness
import NativeBridge.Proofs.Mangling.Writing

/-! # What is written for a text that was read

Whatever the parser accepts is written again as it was, but for applications to no arguments, which
are dropped, and for dots in the packages of names, which become underscores.
-/
namespace NativeBridge

namespace Mangled

/-- The part of a text behind the opening mark of a name: the name, if it is closed, with
underscores for the dots before its last underscore. -/
def tidiedName (letter : Char) (name rest : List Char) : List Char :=
  if closeMark letter <+: rest then SymbolName.flattenPackage name else name

/-- A text without its applications to no arguments and with the packages of its names in
underscores. It is read mark by mark, and a name is read as a whole. -/
def tidied : List Char → List Char
  | [] => []
  | 'T' :: '$' :: '$' :: 'T' :: rest => tidied rest
  | '$' :: letter :: rest => '$' :: letter :: tidied rest
  | letter :: '$' :: rest =>
    if letter = 'A' ∨ letter = 'T' then letter :: '$' :: tidied rest
    else if letter = 'C' ∨ letter = 'S' then
      letter :: '$' :: (tidiedName letter (rest.takeWhile (· ≠ '$')) (rest.dropWhile (· ≠ '$')) ++
        tidied (rest.dropWhile (· ≠ '$')))
    else letter :: tidied ('$' :: rest)
  | c :: rest => c :: tidied rest
termination_by cs => cs.length
decreasing_by
  all_goals simp only [List.length_cons]
  all_goals first
    | omega
    | exact Nat.lt_succ_of_lt (Nat.lt_succ_of_le (List.length_dropWhile_le _ _))

example : tidied "C$a.b_c$CT$$T".toList = "C$a_b_c$C".toList := by cbv

section
variable {rest : List Char}

theorem tidied_emptyGroup : tidied (openMark 'T' ++ (closeMark 'T' ++ rest)) = tidied rest := by
  simp [openMark, closeMark, tidied]

theorem tidied_closeMark (letter : Char) :
    tidied (closeMark letter ++ rest) = closeMark letter ++ tidied rest := by
  simp [closeMark, tidied]

theorem tidied_openArray : tidied (openMark 'A' ++ rest) = openMark 'A' ++ tidied rest := by
  simp [openMark, tidied]

theorem tidied_openGroup (h : ¬ closeMark 'T' <+: rest) :
    tidied (openMark 'T' ++ rest) = openMark 'T' ++ tidied rest := by
  change tidied ('T' :: '$' :: rest) = 'T' :: '$' :: tidied rest
  rw [tidied.eq_4 _ _ (fun more _ hr => h ⟨more, hr.symm⟩) (by decide), if_pos (.inr rfl)]

/-- A character that is part of no mark stays as it is. -/
theorem tidied_cons {c : Char} (hA : c ≠ 'A') (hC : c ≠ 'C') (hS : c ≠ 'S') (hT : c ≠ 'T')
    (hm : c ≠ '$') : tidied (c :: rest) = c :: tidied rest := by
  by_cases h : ∃ more, rest = '$' :: more
  · obtain ⟨more, rfl⟩ := h
    rw [tidied.eq_4 _ _ (fun _ h => absurd h hT) hm, if_neg (by simp [hA, hT]),
      if_neg (by simp [hC, hS])]
  · exact tidied.eq_5 _ _ (fun _ h => absurd h hT) (fun _ _ h => absurd h hm)
      fun more hr => h ⟨more, hr⟩

theorem tidied_name {letter : Char} (hl : letter = 'C' ∨ letter = 'S') {name : List Char}
    (hn : '$' ∉ name) :
    tidied (openMark letter ++ name ++ closeMark letter ++ rest) =
      openMark letter ++ SymbolName.flattenPackage name ++ closeMark letter ++ tidied rest := by
  have hT : letter ≠ 'T' := by rcases hl with rfl | rfl <;> decide
  have hA : letter ≠ 'A' := by rcases hl with rfl | rfl <;> decide
  have hm : letter ≠ '$' := by rcases hl with rfl | rfl <;> decide
  have he : openMark letter ++ name ++ closeMark letter ++ rest =
      letter :: '$' :: (name ++ '$' :: letter :: rest) := by simp [openMark, closeMark]
  have hp : closeMark letter <+: '$' :: letter :: rest := ⟨rest, rfl⟩
  rw [he, tidied.eq_4 _ _ (fun _ h => absurd h hT) hm, if_neg (by simp [hA, hT]), if_pos hl,
    takeWhile_append_mark hn, dropWhile_append_mark hn, tidiedName, if_pos hp]
  change letter :: '$' :: (_ ++ tidied (closeMark letter ++ rest)) = _
  rw [tidied_closeMark]
  simp [openMark]

end

/-- A text without applications to no arguments, and without dots before the last underscore of a
name in it. -/
structure Tidy (cs : List Char) : Prop where
  applied : ¬ (openMark 'T' ++ closeMark 'T') <:+: cs
  flat : ∀ letter ∈ ['C', 'S'], ∀ name, '$' ∉ name →
    (openMark letter ++ name ++ closeMark letter) <:+: cs → '.' ∉ SymbolName.upToLast '_' name

theorem Tidy.of_suffix {cs ds : List Char} (h : Tidy cs) (hs : ds <:+ cs) : Tidy ds :=
  ⟨fun hi => h.applied (hi.trans hs.isInfix),
    fun letter hl name hn hi => h.flat letter hl name hn (hi.trans hs.isInfix)⟩

theorem Tidy.tidied_eq_self {cs : List Char} (h : Tidy cs) : tidied cs = cs := by
  induction cs using tidied.induct with
  | case1 => simp [tidied]
  | case2 rest ih => exact absurd ⟨[], rest, rfl⟩ h.applied
  | case3 letter rest ih =>
    rw [tidied.eq_3, ih (h.of_suffix ⟨['$', letter], rfl⟩)]
  | case4 letter rest h1 h2 hl ih =>
    rw [tidied.eq_4 _ _ h1 h2, if_pos hl, ih (h.of_suffix ⟨[letter, '$'], rfl⟩)]
  | case5 letter rest h1 h2 h3 hl ih =>
    have hr : rest.takeWhile (· ≠ '$') ++ rest.dropWhile (· ≠ '$') = rest :=
      List.takeWhile_append_dropWhile
    have hs : rest.dropWhile (· ≠ '$') <:+ letter :: '$' :: rest :=
      (List.dropWhile_suffix _).trans ⟨[letter, '$'], rfl⟩
    have hname : tidiedName letter (rest.takeWhile (· ≠ '$')) (rest.dropWhile (· ≠ '$')) =
        rest.takeWhile (· ≠ '$') := by
      unfold tidiedName
      split
      · rename_i hc
        obtain ⟨more, hm⟩ := hc
        refine SymbolName.flattenPackage_eq_self (h.flat letter (by simpa using hl) _ ?_ ?_)
        · intro hm
          simpa using List.mem_takeWhile_imp hm
        · refine ⟨[], more, ?_⟩
          rw [List.nil_append, List.append_assoc, hm, List.append_assoc, hr]
          rfl
      · rfl
    rw [tidied.eq_4 _ _ h1 h2, if_neg h3, if_pos hl, ih (h.of_suffix hs), hname, hr]
  | case6 letter rest h1 h2 h3 h4 ih =>
    rw [tidied.eq_4 _ _ h1 h2, if_neg h3, if_neg h4, ih (h.of_suffix ⟨[letter], rfl⟩)]
  | case7 c rest h1 h2 h3 ih =>
    rw [tidied.eq_5 _ _ h1 h2 h3, ih (h.of_suffix ⟨[c], rfl⟩)]

theorem length_tidiedName (letter : Char) (name rest : List Char) :
    (tidiedName letter name rest).length = name.length := by
  unfold tidiedName
  split
  · exact SymbolName.length_flattenPackage name
  · rfl

/-- A text gets no longer. -/
theorem length_tidied_le (cs : List Char) : (tidied cs).length ≤ cs.length := by
  induction cs using tidied.induct with
  | case1 => rw [tidied.eq_1]
  | case2 rest ih =>
    rw [tidied.eq_2]
    exact ih.trans (Nat.le_add_right _ 4)
  | case3 letter rest ih =>
    rw [tidied.eq_3]
    exact Nat.add_le_add_right ih 2
  | case4 letter rest h1 h2 hl ih =>
    rw [tidied.eq_4 _ _ h1 h2, if_pos hl]
    exact Nat.add_le_add_right ih 2
  | case5 letter rest h1 h2 h3 hl ih =>
    have hsplit := congrArg List.length
      (List.takeWhile_append_dropWhile : rest.takeWhile (· ≠ '$') ++ rest.dropWhile (· ≠ '$') = rest)
    rw [List.length_append] at hsplit
    rw [tidied.eq_4 _ _ h1 h2, if_neg h3, if_pos hl, List.length_cons, List.length_cons,
      List.length_append, length_tidiedName, List.length_cons, List.length_cons]
    omega
  | case6 letter rest h1 h2 h3 h4 ih =>
    rw [tidied.eq_4 _ _ h1 h2, if_neg h3, if_neg h4]
    exact Nat.add_le_add_right ih 1
  | case7 c rest h1 h2 h3 ih =>
    rw [tidied.eq_5 _ _ h1 h2 h3]
    exact Nat.add_le_add_right ih 1

/-- Texts of the grammar, as long as opening marks can be counted in them, become `text`, whatever
stands behind them. -/
def Tidies {α : Type} (item : Texts α) (text : α → List Char) : Prop :=
  ∀ s a rest, item s a → s.length < 2 ^ 32 → tidied (s ++ rest) = text a ++ tidied rest

theorem Tidies.items {α : Type} {item : Texts α} {text : α → List Char} (h : Tidies item text) :
    Tidies (Items item) (List.flatMap text) := by
  intro s as rest hs hl
  induction hs with
  | nil => rfl
  | cons ha _ ih =>
    rw [List.length_append] at hl
    rw [List.append_assoc, h _ _ _ ha (by omega), ih (by omega), List.flatMap_cons,
      List.append_assoc]

section
variable {inner : Texts Ty}

theorem tidies_argument (h : Tidies inner Ty.mangledChars) :
    Tidies (ArgumentText inner) Ty.mangledArgument := by
  intro s a rest hs hl
  cases hs with
  | star => exact tidied_cons (by decide) (by decide) (by decide) (by decide) (by decide)
  | concrete ht => exact h _ _ _ ht hl

theorem tidies_group (ho : Opens inner) (h : Tidies inner Ty.mangledChars) :
    Tidies (GroupText inner) Ty.mangledApplication := by
  intro s as rest hs hl
  obtain ⟨hs⟩ := hs
  rename_i s
  simp only [List.length_append] at hl
  have hi := (tidies_argument h).items s as (closeMark 'T' ++ rest) hs (by omega)
  rw [tidied_closeMark] at hi
  by_cases he : as = []
  · subst he
    cases hs
    rw [List.append_nil, List.append_assoc, tidied_emptyGroup]
    rfl
  · have hn : ¬ closeMark 'T' <+: s ++ (closeMark 'T' ++ rest) := by
      cases hs with
      | nil => exact absurd rfl he
      | cons ha _ =>
        cases ha with
        | star => simp [closeMark]
        | concrete ht =>
          rw [List.append_assoc]
          exact (ho _ _ ht).not_closeMark _ _
    rw [List.append_assoc, List.append_assoc, tidied_openGroup hn, hi,
      Ty.mangledApplication_of_ne_nil he]
    simp only [List.append_assoc]

theorem tidies_level (ho : Opens inner) (h : Tidies inner Ty.mangledChars) :
    Tidies (LevelText inner) Ty.mangledLevel := by
  intro s groups rest hs hl
  obtain ⟨hs⟩ := hs
  rw [List.length_append] at hl
  rw [List.append_assoc, tidied_closeMark, (tidies_group ho h).items _ _ _ hs (by omega),
    Ty.mangledLevel, List.append_assoc]

theorem tidies_name {letter : Char} (hl : letter = 'C' ∨ letter = 'S') :
    Tidies (NameText letter) (SymbolName.mangledBetween letter) := by
  intro s n rest hs _
  obtain ⟨hm, hn⟩ := hs
  rw [tidied_name hl hm, SymbolName.mangledBetween, SymbolName.mangledChars_of_ofMangled hn]

theorem tidies_plainText (resolve : Resolver) : Tidies (PlainText resolve) Ty.mangledChars := by
  intro s t rest hs hl
  cases hs with
  | builtin k =>
    rw [Ty.mangledChars_builtin]
    cases k <;> exact tidied_cons (by decide) (by decide) (by decide) (by decide) (by decide)
  | reference hn =>
    rw [Ty.mangledChars_reference]
    exact tidies_name (.inl rfl) _ _ _ hn hl
  | struct hn _ =>
    rw [Ty.mangledChars_struct]
    exact tidies_name (.inr rfl) _ _ _ hn hl

theorem tidied_repeatMark (n : Nat) (rest : List Char) :
    tidied (repeatMark (openMark 'A') n ++ rest) = repeatMark (openMark 'A') n ++ tidied rest := by
  induction n with
  | zero => rfl
  | succ n ih => rw [repeatMark_succ, List.append_assoc, tidied_openArray, ih, List.append_assoc]

theorem tidies_typeText {resolve : Resolver} (ho : Opens inner) (h : Tidies inner Ty.mangledChars) :
    Tidies (TypeText resolve inner) Ty.mangledChars := by
  intro s t rest hs hl
  cases hs with
  | plain hp hg =>
    rw [List.length_append] at hl
    rw [List.append_assoc, tidies_plainText resolve _ _ _ hp (by omega),
      (tidies_group ho h).items _ _ _ hg (by omega), Ty.mangledChars_applied, List.append_assoc]
  | array hs hA hmid hlast hlt =>
    simp only [List.length_append, length_repeatMark] at hl
    rw [Ty.mangledChars_levels _ _ hlt (by omega)]
    simp only [List.append_assoc]
    rw [tidied_repeatMark, h _ _ _ hs (by omega), (tidies_level ho h).items _ _ _ hmid (by omega),
      tidies_level ho h _ _ _ hlast (by omega)]

theorem tidies_within (resolve : Resolver) (budget : Nat) :
    Tidies (Within resolve budget) Ty.mangledChars := by
  induction budget with
  | zero => exact fun _ _ _ h => absurd h not_false
  | succ budget ih => exact tidies_typeText (opens_within resolve budget) ih

end

/-- What is written for a text of the grammar is in the grammar, for what `f` makes of it. -/
def Rewritable {α : Type} (item : Texts α) (text : α → List Char) (f : α → α) : Prop :=
  ∀ s a, item s a → s.length < 2 ^ 32 → item (text a) (f a)

theorem Rewritable.items {α : Type} {item : Texts α} {text : α → List Char} {f : α → α}
    (h : Rewritable item text f) : Rewritable (Items item) (List.flatMap text) (List.map f) := by
  intro s as hs hl
  induction hs with
  | nil => exact .nil
  | cons ha _ ih =>
    rw [List.length_append] at hl
    exact .cons (h _ _ ha (by omega)) (ih (by omega))

section
variable {inner : Texts Ty}

theorem rewritable_argument (h : Rewritable inner Ty.mangledChars id) :
    Rewritable (ArgumentText inner) Ty.mangledArgument id := by
  intro s a hs hl
  cases hs with
  | star => exact .star
  | concrete ht => exact .concrete (h _ _ ht hl)

theorem rewritable_groups (h : Rewritable inner Ty.mangledChars id) :
    Rewritable (Items (GroupText inner)) (List.flatMap Ty.mangledApplication) Ty.effective := by
  intro s groups hs hl
  induction hs with
  | nil => exact .nil
  | @cons s _ as groups ha _ ih =>
    rw [List.length_append] at hl
    rw [List.flatMap_cons]
    by_cases he : as = []
    · subst he
      exact ih (by omega)
    · obtain ⟨hs⟩ := ha
      simp only [List.length_append] at hl
      have hi := (rewritable_argument h).items _ _ hs (by omega)
      rw [List.map_id] at hi
      rw [Ty.effective_cons he, Ty.mangledApplication_of_ne_nil he]
      exact .cons (.mk hi) (ih (by omega))

theorem rewritable_level (h : Rewritable inner Ty.mangledChars id) :
    Rewritable (LevelText inner) Ty.mangledLevel Ty.effective := by
  intro s groups hs hl
  obtain ⟨hs⟩ := hs
  rw [List.length_append] at hl
  exact .mk (rewritable_groups h _ _ hs (by omega))

theorem rewritable_name {letter : Char} :
    Rewritable (NameText letter) (SymbolName.mangledBetween letter) id := by
  intro s n hs _
  obtain ⟨hm, hn⟩ := hs
  refine .mk ?_ (SymbolName.ofMangled_mangledChars_of_ofMangled hn)
  rw [SymbolName.mangledChars_of_ofMangled hn]
  exact fun h => hm (SymbolName.mem_of_mem_flattenPackage (by decide) h)

theorem rewritable_plainText (resolve : Resolver) :
    Rewritable (PlainText resolve) Ty.mangledChars id := by
  intro s t hs hl
  cases hs with
  | builtin k =>
    rw [Ty.mangledChars_builtin]
    exact .builtin k
  | reference hn =>
    rw [Ty.mangledChars_reference]
    exact .reference (rewritable_name _ _ hn hl)
  | struct hn hf =>
    rw [Ty.mangledChars_struct]
    exact .struct (rewritable_name _ _ hn hl) hf

/-- An array is written only for an array. -/
theorem not_openArray_mangledChars {resolve : Resolver} {budget : Nat} {s : List Char} {t : Ty}
    (hs : Within resolve budget s t) (hl : s.length < 2 ^ 32) (hA : ¬ openMark 'A' <+: s) :
    ¬ openMark 'A' <+: t.mangledChars := by
  cases budget with
  | zero => exact absurd hs not_false
  | succ budget =>
    cases hs with
    | plain hp hg =>
      rw [List.length_append] at hl
      have hq := rewritable_plainText resolve _ _ hp (by omega)
      rw [Ty.mangledChars_applied]
      exact hq.opening.not_openArray hq.not_openArray _
    | @array n _ _ _ _ _ _ _ _ _ _ hlt =>
      obtain ⟨k, rfl⟩ := Nat.exists_eq_add_one.2 (Nat.zero_lt_of_lt hlt)
      rw [repeatMark_succ, List.append_assoc] at hA
      exact absurd (List.prefix_append _ _) hA

theorem rewritable_within (resolve : Resolver) (budget : Nat) :
    Rewritable (Within resolve budget) Ty.mangledChars id := by
  induction budget with
  | zero => exact fun _ _ h => absurd h not_false
  | succ budget ih =>
    intro s t hs hl
    cases hs with
    | plain hp hg =>
      rw [List.length_append] at hl
      have hq := rewritable_plainText resolve _ _ hp (by omega)
      have hgs := rewritable_groups ih _ _ hg (by omega)
      rw [Ty.mangledChars_applied, id, ← Ty.applied_effective]
      exact .plain hq hgs
    | @array n s mid last e levels groups hs hA hmid hlast hlt =>
      -- twice as many characters as marks, so the dimensions that are left fit a word
      simp only [List.length_append, length_repeatMark] at hl
      have he := ih _ _ hs (by omega)
      have hm := (rewritable_level ih).items _ _ hmid (by omega)
      have hg := rewritable_level ih _ _ hlast (by omega)
      have hA' := not_openArray_mangledChars hs (by omega) hA
      have hlt' : (levels.map Ty.effective).length < n := by rwa [List.length_map]
      have hr : TypeText resolve (Within resolve budget) _ _ := .array he hA' hm hg hlt'
      rw [Ty.nested_effective, Ty.applied_effective, List.length_map] at hr
      rw [Ty.mangledChars_levels _ _ hlt (by omega)]
      exact hr

end

end Mangled

open Mangled

/-- What was read is written as it was but for empty applications and dots in the packages of
names, and is read again from what is written. -/
theorem mangledList_of_demangleList {input : String} {resolve : Resolver} {ts : List Ty}
    (hl : input.utf8ByteSize < 2 ^ 32) (h : demangleList input resolve = .ok ts) :
    Ty.mangledList ts = String.ofList (tidied input.toList) ∧
      demangleList (Ty.mangledList ts) resolve = .ok ts ∧
      (Tidy input.toList → Ty.mangledList ts = input) := by
  have hlen := (Demangle.length_le_utf8ByteSize input).trans_lt hl
  obtain ⟨hs, hm⟩ := (demangleList_eq_ok_iff hlen).1 h
  have ht := (tidies_within resolve maxNesting).items _ _ [] hs hlen
  rw [List.append_nil, tidied.eq_1, List.append_nil] at ht
  have hw : Ty.mangledList ts = String.ofList (tidied input.toList) := by
    rw [ht]
    rfl
  have hshort : (Ty.mangledList ts).toList.length < 2 ^ 32 := by
    rw [hw, String.toList_ofList]
    exact (length_tidied_le input.toList).trans_lt hlen
  refine ⟨hw, (demangleList_eq_ok_iff hshort).2 ⟨?_, hm⟩, ?_⟩
  · have hr := (rewritable_within resolve maxNesting).items _ _ hs hlen
    rw [List.map_id] at hr
    rw [Ty.mangledList, String.toList_ofList]
    exact hr
  · intro hi
    rw [hw, hi.tidied_eq_self, String.ofList_toList]

theorem mangledList_of_demangleList_dotted :
    demangleList "C$a.b_c$CT$$T" (fun _ => none) = .ok [.reference ⟨"a.b.c", "c"⟩] ∧
      Ty.mangledList [.reference ⟨"a.b.c", "c"⟩] = "C$a_b_c$C" ∧
      demangleList "C$a_b_c$C" (fun _ => none) = .ok [.reference ⟨"a.b.c", "c"⟩] ∧
      Tidy "aT$_$T".toList ∧ Ty.mangledList [.cone (.builtin .void) [.star]] = "aT$_$T" := by
  have h : demangleList "C$a.b_c$CT$$T" (fun _ => none) = .ok [.reference ⟨"a.b.c", "c"⟩] := by
    decide +kernel
  have hw : Ty.mangledList [.reference ⟨"a.b.c", "c"⟩] = "C$a_b_c$C" := by
    rw [(mangledList_of_demangleList (by decide) h).1]
    decide +kernel
  have hr := (mangledList_of_demangleList (by decide) h).2.1
  rw [hw] at hr
  have ht : Tidy "aT$_$T".toList := by
    refine ⟨by decide, fun letter hl name _ hi => ?_⟩
    have hm : letter ∈ "aT$_$T".toList := hi.subset (by simp [openMark])
    rcases List.mem_pair.1 hl with rfl | rfl
    · exact absurd hm (by decide)
    · exact absurd hm (by decide)
  have hs : demangleList "aT$_$T" (fun _ => none) = .ok [.cone (.builtin .void) [.star]] := by
    decide +kernel
  exact ⟨h, hw, hr, ht, (mangledList_of_demangleList (by decide) hs).2.2 ht⟩

end NativeBridge
