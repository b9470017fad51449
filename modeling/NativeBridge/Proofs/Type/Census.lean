import NativeBridge.Proofs.Type.Reading
import NativeBridge.Proofs.Wire.Spending

/-! # What a type costs in bytes

The arguments in a type beside its nodes, and the fewest bytes that nodes with their arguments are
written in: two for a node, which has a tag and something behind it, and one for an argument, which
has a flag. A type that is read costs that much for all of the types inside it, wherever the reader is
in the nesting of levels. An application to no arguments is read and left out, so it costs bytes that
are counted for nothing.
-/
namespace NativeBridge
open Wire

theorem SymbolName.eight_le_length_encode (n : SymbolName) : 8 ≤ n.encode.length := by
  rw [encode, List.length_append, length_text, length_text]
  omega

namespace Ty

/-- The arguments of a type itself, not those of the types inside it. -/
def ownArguments : Ty → List TypeArgument
  | cone _ as => as
  | _ => []

/-- The fewest bytes in which these types and their own arguments are written, parts aside. -/
def toll (us : List Ty) : Nat := 2 * us.length + (us.flatMap ownArguments).length

@[simp] theorem toll_nil : toll [] = 0 := rfl

@[simp] theorem toll_cons (t : Ty) (us : List Ty) :
    toll (t :: us) = 2 + t.ownArguments.length + toll us := by
  simp only [toll, List.length_cons, List.flatMap_cons, List.length_append]
  omega

@[simp] theorem toll_append (us vs : List Ty) : toll (us ++ vs) = toll us + toll vs := by
  simp only [toll, List.flatMap_append, List.length_append]
  omega

theorem toll_flatMap {α : Type} (f : α → List Ty) (xs : List α) :
    toll (xs.flatMap f) = (xs.map fun x => toll (f x)).sum := by
  induction xs with
  | nil => rfl
  | cons x xs ih => rw [List.flatMap_cons, toll_append, ih, List.map_cons, List.sum_cons]

/-- The fewest bytes in which a type is written, with all that is inside it. -/
def price (t : Ty) : Nat := toll t.nodes

/-- An argument costs its flag, and the type in it where there is one. -/
def argumentPrice (a : TypeArgument) : Nat := 1 + toll (nodesOfArgument a)

theorem price_builtin (k : Kind) : (builtin k).price = 2 := rfl

theorem price_reference (n : SymbolName) : (reference n).price = 2 := rfl

theorem price_array (e : Ty) (d : UInt32) : (array e d).price = 2 + e.price := by
  simp [price, nodes, ownArguments]

theorem price_struct (n : SymbolName) (fs : List Ty) :
    (struct n fs).price = 2 + (fs.map price).sum := by
  rw [price, nodes, nodesOfAll_eq, toll_cons, toll_flatMap]
  rfl

theorem price_cone (g : Ty) (as : List TypeArgument) :
    (cone g as).price = 2 + g.price + (as.map argumentPrice).sum := by
  have ha : (as.map argumentPrice).sum = as.length + toll (nodesOfArguments as) := by
    unfold argumentPrice
    rw [List.sum_map_add, List.map_const', List.sum_replicate_nat, Nat.mul_one, nodesOfArguments_eq,
      toll_flatMap]
  rw [ha, price, nodes, toll_cons, toll_append, ownArguments, price]
  omega

theorem price_apply_le (g : Ty) (as : List TypeArgument) : (apply g as).price ≤ (cone g as).price := by
  unfold apply
  split
  · rw [price_cone]
    omega
  · exact Nat.le_refl _

theorem two_le_price (t : Ty) : 2 ≤ t.price := by
  cases t with
  | builtin k => exact Nat.le_of_eq (price_builtin k).symm
  | array e d => rw [price_array]; omega
  | struct n fs => rw [price_struct]; omega
  | reference n => exact Nat.le_of_eq (price_reference n).symm
  | cone g as => rw [price_cone]; omega

section Bodies
variable {inner : Decoder Ty}

/-- The kind takes the one byte that the tag leaves to be paid. -/
theorem spends_builtinBody : builtinBody.Spends fun t => t.price - 1 := by
  intro r s t h
  obtain ⟨k, rfl, hp⟩ := builtinBody_eq_ok_iff.1 h
  exact hp.onward

theorem spends_referenceBody : referenceBody.Spends price := by
  intro r s t h
  obtain ⟨n, _, rfl, hp⟩ := referenceBody_eq_ok_iff.1 h
  have hn := n.eight_le_length_encode
  refine hp.onward.mono ?_
  rw [price_reference]
  omega

variable (hi : inner.Spends price)
include hi

theorem spends_arrayBody : (arrayBody inner).Spends price := by
  intro r s t h
  simp only [arrayBody, Run.bind_eq_ok_iff, Decoder.position_eq_ok_iff, Decoder.word_eq_ok_iff] at h
  obtain ⟨e, u, he, _, _, ⟨rfl, rfl⟩, d, v, hd, h⟩ := h
  obtain ⟨_, h⟩ := Run.check_eq_ok_iff.1 h
  obtain ⟨rfl, rfl⟩ := Run.pure_eq_ok_iff.1 h
  refine ((hi he).trans hd.onward).mono ?_
  rw [price_array, length_word]
  omega

theorem spends_structBody : (structBody inner).Spends price := by
  intro r s t h
  simp only [structBody, Run.bind_eq_ok_iff, SymbolName.decoder_eq_ok_iff, Run.pure_eq_ok_iff] at h
  obtain ⟨n, u, ⟨_, hn⟩, fs, v, hf, rfl, rfl⟩ := h
  have hl := n.eight_le_length_encode
  have hs : u.Onward (4 + (fs.map price).sum) s := hi.list hf
  refine (hn.onward.trans hs).mono ?_
  rw [price_struct]
  omega

theorem spends_argumentWith : (argumentWith inner).Spends argumentPrice := by
  intro r s a h
  obtain ⟨o, t, ho, h⟩ := Run.bind_eq_ok_iff.1 h
  have hs := hi.optional ho
  cases o with
  | none =>
    obtain ⟨rfl, rfl⟩ := Run.pure_eq_ok_iff.1 h
    exact hs
  | some u =>
    obtain ⟨rfl, rfl⟩ := Run.pure_eq_ok_iff.1 h
    exact hs

theorem spends_coneBody : (coneBody inner).Spends price := by
  intro r s t h
  simp only [coneBody, Run.bind_eq_ok_iff, Run.pure_eq_ok_iff] at h
  obtain ⟨g, u, hg, as, v, ha, rfl, rfl⟩ := h
  have hs : u.Onward (4 + (as.map argumentPrice).sum) s := (spends_argumentWith hi).list ha
  have hle := price_apply_le g as
  rw [price_cone] at hle
  exact ((hi hg).trans hs).mono (by omega)

theorem spends_tagged (start : Nat) (tag : UInt8) : (tagged inner start tag).Spends price := by
  have htag : ∀ {body : Decoder Ty}, (body.Spends fun t => t.price - 1) →
      (do let _ ← Decoder.byte; body : Decoder Ty).Spends price := by
    intro body hb r s t h
    obtain ⟨b, u, hu, h⟩ := Run.bind_eq_ok_iff.1 h
    have hs : u.Onward (t.price - 1) s := hb h
    refine ((Decoder.byte_eq_ok_iff.1 hu).onward.trans hs).mono ?_
    rw [List.length_singleton]
    omega
  have hbody : ∀ {body : Decoder Ty}, body.Spends price → body.Spends fun t => t.price - 1 :=
    fun hb => hb.mono fun t => Nat.sub_le _ _
  unfold tagged
  split_ifs
  · exact htag spends_builtinBody
  · exact htag (hbody (spends_arrayBody hi))
  · exact htag (hbody (spends_structBody hi))
  · exact htag (hbody spends_referenceBody)
  · exact htag (hbody (spends_coneBody hi))
  · exact fun _ _ _ h => absurd h Run.throw_ne_ok

end Bodies

/-- A type is paid for in full whatever levels may still be entered. -/
theorem spends_decodeWithin (budget : Nat) : (decodeWithin budget).Spends price := by
  induction budget with
  | zero =>
    intro r s t h
    obtain ⟨_, _, _, h⟩ := Run.bind_eq_ok_iff.1 h
    exact absurd h Run.throw_ne_ok
  | succ budget ih =>
    intro r s t h
    simp only [decodeWithin, Run.bind_eq_ok_iff, Decoder.position_eq_ok_iff,
      Decoder.enter_eq_ok_iff, Decoder.peek_eq_ok_iff, Decoder.leaving_eq_ok_iff] at h
    obtain ⟨_, _, ⟨rfl, rfl⟩, _, _, ⟨_, rfl⟩, tag, _, ⟨rfl, _⟩, u, _, ⟨w, hw, rfl⟩, h⟩ := h
    obtain ⟨_, h⟩ := Run.check_eq_ok_iff.1 h
    obtain ⟨rfl, rfl⟩ := Run.pure_eq_ok_iff.1 h
    -- Entering and leaving a level moves the reader nowhere.
    obtain ⟨hadvanced, hwithin, hrest⟩ := spends_tagged ih _ _ hw
    exact ⟨hadvanced, hwithin, hrest⟩

theorem spends_decoder : decoder.Spends price :=
  fun r _ _ h => spends_decodeWithin (maxNesting - r.depth) h

end Ty

theorem TypeArgument.spends_decoder : TypeArgument.decoder.Spends Ty.argumentPrice :=
  Ty.spends_argumentWith Ty.spends_decoder

end NativeBridge
