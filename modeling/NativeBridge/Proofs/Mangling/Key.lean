import NativeBridge.Proofs.Mangling.Writing
import NativeBridge.Proofs.Name.Mangling
import NativeBridge.Proofs.Symbol.Representable
import NativeBridge.Proofs.Type.Chains

/-! # The sections of a function key

The marks between the sections of a key share their dollar with the marks of types, and a name may
end in the letter of a section. A scan from the left still tells them apart: it knows whether it is
inside a name, and outside of names only arrays and applications close with a mark of their own. So
a section is determined by the text that starts with it, and a key by its sections.
-/
namespace NativeBridge

namespace SymbolName

/-- No dollar is in a name. -/
def Unmarked (n : SymbolName) : Prop := '$' ∉ n.full.toList ∧ '$' ∉ n.short.toList

theorem Unmarked.not_mem_mangledChars {n : SymbolName} (h : n.Unmarked) : '$' ∉ n.mangledChars := by
  intro hm
  rcases List.mem_append.1 hm with hp | hs
  · have hp := mem_of_mem_flattenDots (by decide) hp
    unfold packageChars at hp
    split at hp
    · cases hp
    · exact h.1 (List.mem_of_mem_take hp)
  · rcases List.mem_cons.1 hs with hc | hs
    · exact absurd hc (by decide)
    · exact h.2 hs

end SymbolName

namespace Mangled

/-- The text before the first mark of a section, with a name open or not at its beginning. -/
def front : Bool → List Char → List Char
  | inName, c :: d :: cs =>
    if c = '$' then
      if inName ∨ d = 'A' ∨ d = 'T' then c :: d :: front false cs else []
    else if d = '$' ∧ !inName ∧ (c = 'A' ∨ c = 'T' ∨ c = 'C' ∨ c = 'S') then
      c :: d :: front (c = 'C' ∨ c = 'S') cs
    else c :: front inName (d :: cs)
  | _, cs => cs

/-- The scan goes past this text, wherever it stands between names. -/
def Closed (cs : List Char) : Prop := ∀ rest, front false (cs ++ rest) = cs ++ front false rest

theorem Closed.nil : Closed [] := fun _ => rfl

theorem Closed.append {cs ds : List Char} (hc : Closed cs) (hd : Closed ds) : Closed (cs ++ ds) := by
  intro rest
  rw [List.append_assoc, hc, hd, List.append_assoc]

theorem Closed.flatMap {α : Type} {f : α → List Char} {xs : List α} (h : ∀ x ∈ xs, Closed (f x)) :
    Closed (xs.flatMap f) := by
  induction xs with
  | nil => exact .nil
  | cons x xs ih =>
    rw [List.flatMap_cons]
    exact (h x List.mem_cons_self).append (ih fun y hy => h y (List.mem_cons_of_mem _ hy))

theorem Closed.repeatMark {mark : List Char} (h : Closed mark) (n : Nat) :
    Closed (repeatMark mark n) := by
  rw [NativeBridge.repeatMark, ← List.flatMap_id]
  refine .flatMap fun cs hcs => ?_
  rw [List.eq_of_mem_replicate hcs]
  exact h

/-- A letter that opens nothing. -/
theorem Closed.letter {c : Char} (hd : c ≠ '$') (hA : c ≠ 'A') (hT : c ≠ 'T') (hC : c ≠ 'C')
    (hS : c ≠ 'S') : Closed [c] := by
  intro rest
  cases rest with
  | nil => rfl
  | cons d rest => simp [front, hd, hA, hT, hC, hS]

theorem closed_openMark {letter : Char} (h : letter = 'A' ∨ letter = 'T') :
    Closed (openMark letter) := by
  intro rest
  rcases h with rfl | rfl <;> simp [front, openMark]

theorem closed_closeMark {letter : Char} (h : letter = 'A' ∨ letter = 'T') :
    Closed (closeMark letter) := by
  intro rest
  rcases h with rfl | rfl <;> simp [front, closeMark]

/-- Inside a name the scan goes on to the next dollar. -/
theorem front_name {cs : List Char} (h : '$' ∉ cs) (letter : Char) (rest : List Char) :
    front true (cs ++ closeMark letter ++ rest) = cs ++ closeMark letter ++ front false rest := by
  induction cs with
  | nil => simp [front, closeMark]
  | cons c cs ih =>
    have hc : c ≠ '$' := fun hc => h (hc ▸ List.mem_cons_self)
    have hcs := ih fun hm => h (List.mem_cons_of_mem c hm)
    obtain ⟨d, ds, hds⟩ : ∃ d ds, cs ++ closeMark letter ++ rest = d :: ds := by
      cases cs <;> simp [closeMark]
    rw [List.cons_append, List.cons_append, hds, front, if_neg hc, if_neg (by simp), ← hds, hcs]
    rfl

theorem closed_mangledBetween {n : SymbolName} (h : n.Unmarked) {letter : Char}
    (hl : letter = 'C' ∨ letter = 'S') : Closed (n.mangledBetween letter) := by
  intro rest
  have hn := front_name h.not_mem_mangledChars letter rest
  rw [List.append_assoc] at hn
  rcases hl with rfl | rfl <;>
    simp [SymbolName.mangledBetween, openMark, front, hn]

/-- The scan stops at the mark of a section. -/
theorem front_closeMark {letter : Char} (hA : letter ≠ 'A') (hT : letter ≠ 'T')
    (rest : List Char) : front false (closeMark letter ++ rest) = [] := by
  simp [closeMark, front, hA, hT]

/-- A section and what follows its mark are determined by the text that they make. -/
theorem Closed.append_inj {cs ds rest tail : List Char} (hc : Closed cs) (hd : Closed ds)
    {letter : Char} (hA : letter ≠ 'A') (hT : letter ≠ 'T')
    (h : cs ++ (closeMark letter ++ rest) = ds ++ (closeMark letter ++ tail)) :
    cs = ds ∧ rest = tail := by
  have hf := congrArg (front false) h
  rw [hc, hd, front_closeMark hA hT, front_closeMark hA hT, List.append_nil, List.append_nil] at hf
  subst hf
  exact ⟨rfl, List.append_cancel_left (List.append_cancel_left h)⟩

/-- A name and what follows its mark are determined by the text that they make. -/
theorem append_closeMark_inj {cs ds rest tail : List Char} (hc : '$' ∉ cs) (hd : '$' ∉ ds)
    {letter : Char} (h : cs ++ (closeMark letter ++ rest) = ds ++ (closeMark letter ++ tail)) :
    cs = ds ∧ rest = tail := by
  have hf := congrArg (List.takeWhile (· ≠ '$')) h
  simp only [closeMark, List.cons_append] at hf
  rw [takeWhile_append_mark hc, takeWhile_append_mark hd] at hf
  subst hf
  exact ⟨rfl, List.append_cancel_left (List.append_cancel_left h)⟩

end Mangled

namespace Ty
open Mangled

/-- No dollar is in the names that are written for a type. -/
def Unmarked (t : Ty) : Prop := ∀ u ∈ t.visible, ∀ n ∈ u.ownName?, n.Unmarked

theorem Unmarked.closed {t : Ty} (h : t.Unmarked) : Closed t.mangledChars := by
  induction t using Ty.inductionOn with
  | builtin k =>
    rw [mangledChars_builtin]
    cases k <;> exact .letter (by decide) (by decide) (by decide) (by decide) (by decide)
  | array e d ih =>
    rw [mangledChars_array]
    have he := ih fun u hu => h u (mem_visible_array.2 (.inr hu))
    exact ((closed_openMark (.inl rfl)).repeatMark _).append
      (he.append (closed_closeMark (.inl rfl)))
  | struct n fs ih =>
    rw [mangledChars_struct]
    exact closed_mangledBetween (h _ (self_mem_visible _) n rfl) (.inr rfl)
  | reference n =>
    rw [mangledChars_reference]
    exact closed_mangledBetween (h _ (self_mem_visible _) n rfl) (.inl rfl)
  | cone g as ihg iha =>
    rw [mangledChars_cone]
    refine (ihg fun u hu => h u (mem_visible_cone.2 (.inr (.inl hu)))).append ?_
    by_cases hne : as = []
    · rw [hne]
      exact .nil
    · rw [mangledApplication_of_ne_nil hne]
      refine ((closed_openMark (.inr rfl)).append (.flatMap fun a ha => ?_)).append
        (closed_closeMark (.inr rfl))
      cases a with
      | star => exact .letter (by decide) (by decide) (by decide) (by decide) (by decide)
      | concrete t =>
        exact iha t ha fun u hu => h u (mem_visible_cone.2 (.inr (.inr ⟨t, ha, hu⟩)))

theorem closed_mangledListChars {ts : List Ty} (h : ∀ t ∈ ts, t.Unmarked) :
    Closed (mangledListChars ts) := .flatMap fun t ht => (h t ht).closed

theorem mangledChars_ne_nil (t : Ty) : t.mangledChars ≠ [] := by
  induction t using Ty.inductionOn with
  | builtin k => simp [mangledChars_builtin]
  | array e d ih => simp [mangledChars_array, closeMark]
  | struct n fs ih => simp [mangledChars_struct, SymbolName.mangledBetween, openMark]
  | reference n => simp [mangledChars_reference, SymbolName.mangledBetween, openMark]
  | cone g as ihg iha => simp [mangledChars_cone, ihg]

/-- What a receiver writes into its section. -/
def mangledReceiver : Option Ty → String
  | none => ""
  | some t => t.mangled

theorem mangledReceiver_eq (o : Option Ty) :
    mangledReceiver o = String.ofList (mangledListChars o.toList) := by
  cases o with
  | none => rfl
  | some t => simp [mangledReceiver, mangled, mangledListChars]

theorem mangled_ne_mangledReceiver_none (t : Ty) : t.mangled ≠ mangledReceiver none := by
  intro h
  have hc := congrArg String.toList h
  rw [mangled, String.toList_ofList] at hc
  exact t.mangledChars_ne_nil hc

end Ty

namespace Signature
open Mangled

/-- No dollar is in the names that are written into a key. -/
structure KeyUnmarked (s : Signature) (name : SymbolName) (typeArguments : List Ty) : Prop where
  name : name.Unmarked
  types : ∀ t ∈ s.types, t.Unmarked
  arguments : ∀ t ∈ typeArguments, t.Unmarked

section
variable {s r : Signature} {n m : SymbolName} {as bs : List Ty}

theorem KeyUnmarked.closed (h : s.KeyUnmarked n as) : Closed s.returns.mangledChars ∧
    Closed (Ty.mangledListChars s.parameters) ∧ Closed (Ty.mangledListChars s.dispatch.toList) ∧
    Closed (Ty.mangledListChars s.extension.toList) ∧ Closed (Ty.mangledListChars s.contexts) := by
  have ht := h.types
  simp only [Signature.types, List.mem_cons, List.mem_append, or_imp, forall_and, forall_eq] at ht
  obtain ⟨hreturns, ⟨⟨hparameters, hdispatch⟩, hextension⟩, hcontexts⟩ := ht
  exact ⟨hreturns.closed, Ty.closed_mangledListChars hparameters,
    Ty.closed_mangledListChars hdispatch, Ty.closed_mangledListChars hextension,
    Ty.closed_mangledListChars hcontexts⟩

/-- Section by section, from the first to the last. -/
theorem keyChars_inj (hs : s.KeyUnmarked n as) (hr : r.KeyUnmarked m bs)
    (h : s.keyChars n as = r.keyChars m bs) :
    n.mangledChars = m.mangledChars ∧ s.returns.mangledChars = r.returns.mangledChars ∧
      Ty.mangledListChars s.parameters = Ty.mangledListChars r.parameters ∧
      Ty.mangledListChars s.dispatch.toList = Ty.mangledListChars r.dispatch.toList ∧
      Ty.mangledListChars s.extension.toList = Ty.mangledListChars r.extension.toList ∧
      Ty.mangledListChars s.contexts = Ty.mangledListChars r.contexts ∧
      Ty.mangledListChars as = Ty.mangledListChars bs := by
  obtain ⟨hsr, hsp, hsd, hse, hsx⟩ := hs.closed
  obtain ⟨hrr, hrp, hrd, hre, hrx⟩ := hr.closed
  simp only [keyChars, List.append_assoc] at h
  have h := List.append_cancel_left h
  obtain ⟨hname, h⟩ := append_closeMark_inj hs.name.not_mem_mangledChars
    hr.name.not_mem_mangledChars h
  obtain ⟨hreturns, h⟩ := hsr.append_inj hrr (by decide) (by decide) h
  obtain ⟨hparameters, h⟩ := hsp.append_inj hrp (by decide) (by decide) h
  obtain ⟨hdispatch, h⟩ := hsd.append_inj hrd (by decide) (by decide) h
  obtain ⟨hextension, h⟩ := hse.append_inj hre (by decide) (by decide) h
  obtain ⟨hcontexts, h⟩ := hsx.append_inj hrx (by decide) (by decide) h
  have harguments := List.append_cancel_right h
  exact ⟨hname, hreturns, hparameters, hdispatch, hextension, hcontexts, harguments⟩

/-- Two keys are equal if and only if their sections are. No receiver is mistaken for one that is
absent. -/
theorem key_eq_key_iff (hs : s.KeyUnmarked n as) (hr : r.KeyUnmarked m bs) :
    (s.key n as = r.key m bs ↔
      n.mangled = m.mangled ∧ s.returns.mangled = r.returns.mangled ∧
        Ty.mangledList s.parameters = Ty.mangledList r.parameters ∧
        Ty.mangledReceiver s.dispatch = Ty.mangledReceiver r.dispatch ∧
        Ty.mangledReceiver s.extension = Ty.mangledReceiver r.extension ∧
        Ty.mangledList s.contexts = Ty.mangledList r.contexts ∧
        Ty.mangledList as = Ty.mangledList bs) ∧
    ∀ t : Ty, t.mangled ≠ Ty.mangledReceiver none := by
  refine ⟨?_, Ty.mangled_ne_mangledReceiver_none⟩
  simp only [key, SymbolName.mangled, Ty.mangled, Ty.mangledList, Ty.mangledReceiver_eq,
    String.ofList_inj]
  constructor
  · exact keyChars_inj hs hr
  · rintro ⟨hname, hreturns, hparameters, hdispatch, hextension, hcontexts, harguments⟩
    simp only [keyChars, hname, hreturns, hparameters, hdispatch, hextension, hcontexts, harguments]

end

/-- A reference whose name holds the letter of the next section, in a section of its own and one
section further on. -/
theorem key_ne_key_moved :
    let x : Ty := .reference ⟨"Pkg.P", "P"⟩
    let s : Signature := ⟨.builtin .void, [x], none, none, []⟩
    let r : Signature := ⟨.builtin .void, [], some x, none, []⟩
    let n : SymbolName := ⟨"a.f", "f"⟩
    s.key n [] = "F$a_f$Ra$PC$Pkg_P$C$D$E$X$G$F" ∧ r.key n [] = "F$a_f$Ra$P$DC$Pkg_P$C$E$X$G$F" ∧
      s.key n [] ≠ r.key n [] := by
  intro x s r n
  have hx : x.Unmarked := by
    intro u hu m hm
    simp only [x, Ty.visible, List.mem_singleton] at hu
    subst hu
    cases hm
    exact ⟨by decide, by decide⟩
  have hv : (Ty.builtin .void).Unmarked := by
    intro u hu m hm
    simp only [Ty.visible, List.mem_singleton] at hu
    subst hu
    cases hm
  have hn : n.Unmarked := ⟨by decide, by decide⟩
  have hs : s.KeyUnmarked n [] := ⟨hn, by simp [types, s, hx, hv], by simp⟩
  have hr : r.KeyUnmarked n [] := ⟨hn, by simp [types, r, hx, hv], by simp⟩
  refine ⟨by decide +kernel, by decide +kernel, fun h => ?_⟩
  have hp := ((key_eq_key_iff hs hr).1.1 h).2.2.1
  exact absurd hp (by decide +kernel)

end Signature

end NativeBridge
