import NativeBridge.Proofs.Type.Reading
import NativeBridge.Proofs.Wire.Levels

/-! # The level of nesting after a type is read

Reading a type enters a level before it looks for the tag, and gives the level back only behind the
tag. So a level stays open on exactly the inputs that end where the tag of a type is due, however
deep inside other types that is: one level, since those around it are left again. No byte is left
then, so readings that still have a byte to look at find the level as it was at the beginning.
-/
namespace NativeBridge
open Wire Decoder

namespace Ty

/-- Behind the tag of a type, the bytes break off in one of its parts. -/
def PartBreaks (budget : Nat) (broken : Bytes → Prop) (tag : UInt8) (bytes : Bytes) : Prop :=
  tag = arrayTag ∧ broken bytes ∨
  tag = structTag ∧ (∃ n rest, SymbolName.format.Admits n ∧ bytes = n.encode ++ rest ∧
    (format budget).ListBreaks broken rest) ∨
  tag = coneTag ∧ (broken bytes ∨ ∃ g rest, (format budget).Admits g ∧ bytes = g.encode ++ rest ∧
    (argumentFormat budget).ListBreaks (OptionalBreaks broken) rest)

/-- The bytes end where the tag of a type is due and a level may still be entered for it. -/
def Due : Nat → Bytes → Prop
  | 0 => fun _ => False
  | budget + 1 => fun bytes =>
    bytes = [] ∨ ∃ tag rest, bytes = tag :: rest ∧ PartBreaks budget (Due budget) tag rest

theorem due_succ_nil (budget : Nat) : Due (budget + 1) [] := .inl rfl

theorem due_succ_cons_iff {budget : Nat} {tag : UInt8} {rest : Bytes} :
    Due (budget + 1) (tag :: rest) ↔ PartBreaks budget (Due budget) tag rest := by
  simp [Due]

section Bodies
variable {inner : Decoder Ty} {level budget : Nat} {broken : Bytes → Prop}
variable (h : inner.Strands level broken) (hi : inner.Reads level (format budget))
include h

theorem strands_arrayBody : (arrayBody inner).Strands level broken :=
  h.followed fun _ => KeepsLevel.position.bind fun _ => KeepsLevel.sequential.word.bind fun _ =>
    KeepsLevel.sequential.check (.pure _)

theorem strands_argumentWith : (argumentWith inner).Strands level (OptionalBreaks broken) := by
  refine h.optional.followed fun o => ?_
  cases o with
  | none => exact .pure _
  | some t => exact .pure _

include hi

theorem strands_structBody : (structBody inner).Strands level fun bytes =>
    ∃ n rest, SymbolName.format.Admits n ∧ bytes = n.encode ++ rest ∧
      (format budget).ListBreaks broken rest := by
  refine (KeepsLevel.sequential.name.strands level).bind
    (fun n => (h.list hi).followed fun fs => .pure _) fun r hr => ?_
  rw [(SymbolName.reads_decoder level).exists_ok_iff hr, false_or]
  exact Iff.rfl

theorem strands_coneBody : (coneBody inner).Strands level fun bytes =>
    broken bytes ∨ ∃ g rest, (format budget).Admits g ∧ bytes = g.encode ++ rest ∧
      (argumentFormat budget).ListBreaks (OptionalBreaks broken) rest := by
  refine h.bind (fun g => ((strands_argumentWith h).list (reads_argumentWith hi)).followed
    fun as => .pure _) fun r hr => ?_
  rw [hi.exists_ok_iff hr]
  exact Iff.rfl

theorem strands_tagged (start : Nat) (tag : UInt8) : (tagged inner start tag).Strands level
    fun bytes => ∃ first rest, bytes = first :: rest ∧ PartBreaks budget broken tag rest := by
  have hbody : ∀ {body : Decoder Ty} {stuck : Bytes → Prop}, body.Strands level stuck →
      (do let _ ← Decoder.byte; body : Decoder Ty).Strands level fun bytes =>
        ∃ first rest, bytes = first :: rest ∧ stuck rest := by
    intro body stuck hb
    refine (KeepsLevel.byte.strands level).bind (fun _ => hb) fun r _ => ?_
    simp only [byte_eq_ok_iff, exists_past_iff, false_or, List.singleton_append]
  unfold tagged
  split_ifs with h0 h1 h2 h3 h4
  · refine (hbody (KeepsLevel.sequential.builtinBody.strands level)).congr fun bytes => ?_
    simp [PartBreaks, h0, builtinTag, arrayTag, structTag, coneTag]
  · refine (hbody (strands_arrayBody h)).congr fun bytes => ?_
    simp [PartBreaks, h1, arrayTag, structTag, coneTag]
  · refine (hbody (strands_structBody h hi)).congr fun bytes => ?_
    simp [PartBreaks, h2, arrayTag, structTag, coneTag]
  · refine (hbody ((KeepsLevel.sequential.name.bind fun n => .pure _).strands level)).congr
      fun bytes => ?_
    simp [PartBreaks, h3, referenceTag, arrayTag, structTag, coneTag]
  · refine (hbody (strands_coneBody h hi)).congr fun bytes => ?_
    simp [PartBreaks, h4, arrayTag, structTag, coneTag]
  · refine ((KeepsLevel.throw _).strands level).congr fun bytes => ?_
    simp [PartBreaks, h1, h2, h4]

end Bodies

section Step
variable {budget : Nat} {r : Reader} (hd : r.depth < maxNesting)
include hd

/-- The level has been entered when the tag is looked for. -/
theorem decodeWithin_of_nil (hr : r.rest = []) : decodeWithin (budget + 1) r =
    .error (.unexpectedEnd r.position 1 0) { r with depth := r.depth + 1 } := by
  have hp : Decoder.peek { r with depth := r.depth + 1 } =
      .error (.unexpectedEnd r.position 1 0) { r with depth := r.depth + 1 } := by
    rw [Decoder.peek, hr]
  unfold decodeWithin
  rw [Run.bind_of_ok (position_eq_ok_iff.2 ⟨rfl, rfl⟩),
    Run.bind_of_ok (enter_eq_ok_iff (u := ()).2 ⟨hd, rfl⟩)]
  exact Run.bind_eq_error_iff.2 (.inl hp)

theorem decodeWithin_of_cons {tag : UInt8} {rest : Bytes} (hr : r.rest = tag :: rest) :
    decodeWithin (budget + 1) r = (do
      let t ← Decoder.leaving (tagged (decodeWithin budget) r.position tag)
      if t.isAggregate && t.checkedSize.isNone then throw (.sizeOverflow r.position)
      return t : Decoder Ty) { r with depth := r.depth + 1 } := by
  have hp : Decoder.peek { r with depth := r.depth + 1 } = .ok tag { r with depth := r.depth + 1 } :=
    peek_eq_ok_iff.2 ⟨rfl, rest, hr⟩
  rw [decodeWithin, Run.bind_of_ok (position_eq_ok_iff.2 ⟨rfl, rfl⟩),
    Run.bind_of_ok (enter_eq_ok_iff (u := ()).2 ⟨hd, rfl⟩), Run.bind_of_ok hp]

end Step

theorem keepsLevel_sized (offset : Nat) (t : Ty) : (do
    if t.isAggregate && t.checkedSize.isNone then throw (.sizeOverflow offset)
    return t : Decoder Ty).KeepsLevel := KeepsLevel.sequential.check (.pure t)

/-- A level stays open on exactly the inputs that end where a type is due. -/
theorem strands_decodeWithin {budget level : Nat} (h : budget ≤ maxNesting - level) :
    (decodeWithin budget).Strands level (Due budget) := by
  induction budget generalizing level with
  | zero => exact (KeepsLevel.position.bind fun _ => .throw _).strands level
  | succ budget ih =>
    have hi : (decodeWithin budget).Reads (level + 1) (format budget) :=
      reads_decodeWithin (by omega)
    -- The parts are read a level deeper, where one less may be entered.
    have hinner : (decodeWithin budget).Strands (level + 1) (Due budget) := ih (by omega)
    have ht := strands_tagged hinner hi
    constructor
    · intro r hr hn
      have hb : { r with depth := r.depth + 1 : Reader }.depth = level + 1 := congrArg (· + 1) hr
      cases hrest : r.rest with
      | nil => exact absurd (hrest ▸ due_succ_nil budget) hn
      | cons tag rest =>
        rw [hrest, due_succ_cons_iff] at hn
        have hl := (ht r.position tag).returns hb (by simpa [hrest] using hn)
        rw [after, decodeWithin_of_cons (by omega) hrest, ← after,
          KeepsLevel.depth_after_bind (keepsLevel_sized r.position), after_leaving, hl]
        rfl
    · intro r hr hd
      have hb : { r with depth := r.depth + 1 : Reader }.depth = level + 1 := congrArg (· + 1) hr
      cases hrest : r.rest with
      | nil =>
        exact ⟨{ r with depth := r.depth + 1 }, decodeWithin_of_nil (by omega) hrest, hrest, hb⟩
      | cons tag rest =>
        rw [hrest, due_succ_cons_iff] at hd
        obtain ⟨s, hs, hsr, hsd⟩ := (ht r.position tag).strands hb ⟨tag, rest, hrest, hd⟩
        refine ⟨{ s with depth := s.depth - 1 }, ?_, hsr, by simp [hsd]⟩
        rw [decodeWithin_of_cons (by omega) hrest]
        exact Run.bind_eq_error_iff.2 (.inl (leaving_of_error hs))

theorem strands_decoder (level : Nat) : decoder.Strands level (Due (maxNesting - level)) where
  returns hr h := by
    subst hr
    exact (strands_decodeWithin le_rfl).returns rfl h
  strands hr h := by
    subst hr
    exact (strands_decodeWithin le_rfl).strands rfl h

/-- The reader after so many readings of a type in a row, whatever comes of them. -/
def attempts : Nat → Reader → Reader
  | 0, r => r
  | n + 1, r => attempts n (decoder.after r)

/-- At the end of the input a reading takes one level more, until none is left. -/
theorem after_decoder_of_nil {r : Reader} (h : r.rest = []) :
    (decoder.after r).rest = [] ∧
      (r.depth ≤ maxNesting → (decoder.after r).depth = min (r.depth + 1) maxNesting) := by
  by_cases hd : r.depth < maxNesting
  · have hdue : Due (maxNesting - r.depth) r.rest := by
      obtain ⟨budget, hb⟩ := Nat.exists_eq_succ_of_ne_zero (Nat.sub_ne_zero_of_lt hd)
      rw [hb, h]
      exact due_succ_nil budget
    obtain ⟨s, hs, hrest, hdepth⟩ := (strands_decoder r.depth).strands rfl hdue
    rw [after_of_error hs, hdepth]
    exact ⟨hrest, fun _ => by omega⟩
  · have hb : maxNesting - r.depth = 0 := by omega
    have ha : decoder.after r = r := by
      rw [after, decoder, hb]
      rfl
    rw [ha]
    exact ⟨h, fun _ => by omega⟩

theorem attempts_of_nil {r : Reader} (h : r.rest = []) (n : Nat) :
    (attempts n r).rest = [] ∧
      (r.depth ≤ maxNesting → (attempts n r).depth = min (r.depth + n) maxNesting) := by
  induction n generalizing r with
  | zero => exact ⟨h, fun hd => (Nat.min_eq_left hd).symm⟩
  | succ n ih =>
    obtain ⟨hrest, hdepth⟩ := after_decoder_of_nil h
    refine ⟨(ih hrest).1, fun hd => ?_⟩
    have hs := hdepth hd
    rw [attempts, (ih hrest).2 (by omega), hs]
    omega

/-- While a byte is left, no number of readings has changed the level. -/
theorem depth_attempts {r : Reader} {n : Nat} (h : (attempts n r).rest ≠ []) :
    (attempts n r).depth = r.depth := by
  induction n generalizing r with
  | zero => rfl
  | succ n ih =>
    rw [attempts, ih h]
    refine (strands_decoder r.depth).returns rfl fun hdue => ?_
    obtain ⟨s, hs, hrest, _⟩ := (strands_decoder r.depth).strands rfl hdue
    exact h (attempts_of_nil (after_of_error hs ▸ hrest) n).1

/-- The level after a reading is that before it, but where the input ends before the tag of a type:
there a level stays open, and with every further reading another. -/
theorem depth_after_decoder (r : Reader) :
    (∀ t s, decoder r = .ok t s → s.depth = r.depth) ∧
      (¬Due (maxNesting - r.depth) r.rest → (decoder.after r).depth = r.depth) ∧
      (Due (maxNesting - r.depth) r.rest → ∃ s,
        decoder r = .error (.unexpectedEnd s.position 1 0) s ∧ s.rest = [] ∧ s.depth = r.depth + 1) ∧
      ∀ n, ((attempts n r).rest ≠ [] → (attempts n r).depth = r.depth) ∧
        (r.rest = [] → r.depth ≤ maxNesting →
          (attempts n r).depth = min (r.depth + n) maxNesting) := by
  have h := strands_decoder r.depth
  refine ⟨fun t s hs => h.depth_of_ok rfl hs, h.returns rfl, h.strands rfl, fun n => ⟨?_, ?_⟩⟩
  · exact depth_attempts
  · exact fun hr => (attempts_of_nil hr n).2

/-- A struct of two fields that ends behind the tag of the second, an array, and a union tag. -/
theorem depth_after_decoder_struct :
    let header : Bytes := [2, 0, 0, 0, 1, 80, 0, 0, 0, 1, 80, 0, 0, 0, 2, 0, 3]
    let cut : Reader := ⟨header ++ [1], 0, 3, []⟩
    let odd : Reader := ⟨[9], 0, 3, []⟩
    (¬Due (maxNesting - 3) odd.rest ∧ (decoder.after odd).depth = 3) ∧
      (Due (maxNesting - 3) cut.rest ∧ ∃ s, decoder cut = .error (.unexpectedEnd s.position 1 0) s ∧
        s.rest = [] ∧ s.depth = 4) ∧
      (attempts 1 cut).rest = [] ∧ (attempts 300 (attempts 1 cut)).depth = maxNesting := by
  intro header cut odd
  have ho : ¬Due (maxNesting - 3) odd.rest := by
    rw [show maxNesting - 3 = 252 + 1 from rfl, due_succ_cons_iff]
    simp [PartBreaks, arrayTag, structTag, coneTag]
  have hint : (format 252).Admits (builtin .int) :=
    admits_succ_iff.2 ⟨trivial, by simp [checkedSize]⟩
  have hfields : (format 252).ListBreaks (Due 252) [0, 0, 0, 2, 0, 3, 1] :=
    ⟨2, [0, 3, 1], by decide, by decide, [builtin .int], [1], by decide, by simpa using hint, rfl,
      due_succ_cons_iff.2 (.inl ⟨rfl, due_succ_nil 250⟩)⟩
  have hc : Due (maxNesting - 3) cut.rest :=
    due_succ_cons_iff.2 (.inr (.inl ⟨rfl, ⟨"P", "P"⟩, _, SymbolName.admits_iff.2 (by decide), rfl,
      hfields⟩))
  obtain ⟨_, hkeep, _, _⟩ := depth_after_decoder odd
  obtain ⟨_, _, hopen, hn⟩ := depth_after_decoder cut
  obtain ⟨s, hs, hrest, hdepth⟩ := hopen hc
  have ha : attempts 1 cut = s := after_of_error hs
  refine ⟨⟨ho, hkeep ho⟩, ⟨hc, s, hs, hrest, hdepth⟩, ha ▸ hrest, ?_⟩
  obtain ⟨_, _, _, hm⟩ := depth_after_decoder s
  rw [ha, (hm 300).2 hrest (by rw [hdepth]; decide), hdepth]
  decide

/-- The end of an input of no bytes leaves a level open. -/
theorem not_forall_depth_after_decoder : ¬∀ r : Reader, (decoder.after r).depth = r.depth := by
  intro h
  exact absurd (h (.ofBytes [])) (by decide)

end Ty

end NativeBridge
