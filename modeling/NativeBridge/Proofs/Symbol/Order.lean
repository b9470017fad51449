import Mathlib.Data.List.Perm.Basic
import NativeBridge.Proofs.Symbol.Ids
import NativeBridge.Proofs.Wire.Noting

/-! # The order in which inputs are decoded

Decoding a table moves the counter to the greatest of where it stands and what the identifiers that
were read reserve, also where the input is refused behind them. A greatest number does not depend on an
order, so whichever of several inputs is decoded first, the counter ends at the same place and gives
out the same identifiers from there.
-/
namespace NativeBridge
open Wire
open Decoder hiding word

namespace IdCounter

/-- Up to where a raw identifier moves a counter that stands before that. -/
def reserved (raw : UInt32) : Nat := min (raw.toNat + 1) greatest.toNat

theorem toNat_after (raw : UInt32) : (after raw).toNat = reserved raw := by
  have hlt := raw.toNat_lt
  have hg : greatest.toNat = 4294967295 := rfl
  unfold after reserved
  split
  · rename_i h
    subst h
    rfl
  · rename_i h
    have hne : raw.toNat ≠ 4294967295 := fun he => h (UInt32.toNat_inj.1 he)
    rw [UInt32.toNat_add, UInt32.toNat_one]
    omega

theorem toNat_note (c : IdCounter) (raw : UInt32) :
    (c.note raw).upcoming.toNat = max (reserved raw) c.upcoming.toNat := by
  unfold note
  split
  · rename_i h
    rw [UInt32.lt_iff_toNat_lt, toNat_after] at h
    rw [toNat_after, max_eq_left (Nat.le_of_lt h)]
  · rename_i h
    rw [UInt32.lt_iff_toNat_lt, toNat_after, Nat.not_lt] at h
    rw [max_eq_right h]

theorem toNat_noteAll (c : IdCounter) (raws : List UInt32) :
    (c.noteAll raws).upcoming.toNat = (raws.map reserved).foldr max c.upcoming.toNat := by
  induction raws with
  | nil => rfl
  | cons raw raws ih => rw [noteAll_cons, toNat_note, ih, List.map_cons, List.foldr_cons]

theorem ext_toNat {c d : IdCounter} (h : c.upcoming.toNat = d.upcoming.toNat) : c = d := by
  cases c
  cases d
  exact congrArg mk (UInt32.toNat_inj.1 h)

theorem noteAll_of_perm {raws others : List UInt32} (h : raws.Perm others) (c : IdCounter) :
    c.noteAll raws = c.noteAll others := by
  refine ext_toNat ?_
  rw [toNat_noteAll, toNat_noteAll, (h.map reserved).foldr_eq]

theorem noteAll_append (c : IdCounter) (raws others : List UInt32) :
    c.noteAll (raws ++ others) = (c.noteAll others).noteAll raws := List.foldr_append

theorem noteAll_comm (c : IdCounter) (raws others : List UInt32) :
    (c.noteAll raws).noteAll others = (c.noteAll others).noteAll raws := by
  rw [← noteAll_append, ← noteAll_append, noteAll_of_perm List.perm_append_comm]

end IdCounter

namespace Symbol

/-- Bytes begin as the encoding of a symbol with this identifier does. -/
def Begins (raw : UInt32) (bytes : Bytes) : Prop :=
  ∃ tag rest, known tag = true ∧ bytes = tag :: (word raw ++ rest)

theorem begins_encode (s : Symbol) (rest : Bytes) : Begins s.id.raw (s.encode ++ rest) := by
  refine ⟨s.variant.tag, s.encodeParts ++ rest, SymbolVariant.known_tag s.variant, ?_⟩
  simp [encode, encodeParts]

/-- The identifiers that can be read of bytes in which `n` symbols should stand, in order: those of
the symbols that are there, and that of the next if it alone can still be read. -/
inductive Shows : Nat → Bytes → List UInt32 → Prop
  | done (bytes : Bytes) : Shows 0 bytes []
  | lost {bytes : Bytes} (n : Nat) (begins : ∀ raw, ¬Begins raw bytes) : Shows (n + 1) bytes []
  | broken {raw : UInt32} {bytes : Bytes} (n : Nat) (begins : Begins raw bytes)
      (refused : ∀ s rest, format.Admits s → bytes ≠ s.encode ++ rest) : Shows (n + 1) bytes [raw]
  | next {n : Nat} {s : Symbol} {rest : Bytes} {ids : List UInt32} (admits : format.Admits s)
      (behind : Shows n rest ids) : Shows (n + 1) (s.encode ++ rest) (s.id.raw :: ids)

variable {r : Reader} {raw : UInt32}

/-- A symbol notes its identifier as soon as that is read, whatever comes behind it. -/
theorem notes_of_begins (h : Begins raw r.rest) : decoder.Notes r [raw] := by
  obtain ⟨tag, rest, hk, hr⟩ := h
  refine Silent.nested.position.notes_after rfl ?_
  refine Silent.peek.notes_after (peek_eq_ok_iff.2 ⟨rfl, _, hr⟩) ?_
  rw [if_neg (by simp [hk])]
  obtain ⟨t, ht, rfl⟩ := (exists_past_iff (p := (· = rest)) []).2
    ⟨rest, show r.rest = ([tag] ++ word raw) ++ rest from hr, rfl⟩
  obtain ⟨s, hs, ht⟩ := Reader.Past.split (i := []) (j := []) ht
  refine Silent.byte.notes_after (byte_eq_ok_iff.2 hs) ?_
  refine Silent.nested.word.notes_after (word_eq_ok_iff.2 ht) ?_
  -- nothing behind the identifier is noted
  exact Silent.notes_bind (fun _ => Silent.nested.behindId tag raw) fun _ => rfl

theorem notes_of_not_begins (h : ∀ raw, ¬Begins raw r.rest) : decoder.Notes r [] := by
  refine Silent.nested.position.notes_after rfl ?_
  cases hp : peek r with
  | error e s => exact (Silent.peek r).bind_error hp
  | ok tag s =>
    obtain ⟨rfl, rest, hr⟩ := peek_eq_ok_iff.1 hp
    refine Silent.peek.notes_after hp ?_
    split_ifs with hk
    · exact (Silent.throw _ s).bind_error rfl
    · have hb : s.Past [tag] [] { s with rest, position := s.position + 1 } := ⟨hr, rfl, rfl, rfl⟩
      refine Silent.byte.notes_after (byte_eq_ok_iff.2 hb) ?_
      cases hw : Decoder.word { s with rest, position := s.position + 1 } with
      | error e t => exact (Silent.nested.word _).bind_error hw
      | ok raw t =>
        have hrest : rest = word raw ++ t.rest := (word_eq_ok_iff.1 hw).rest
        exact absurd ⟨tag, t.rest, by simpa using hk, by rw [hr, hrest]⟩ (h raw)

/-- What is read as a symbol begins as one. -/
theorem begins_of_ok {s : Reader} {a : Symbol} (hr : r.depth = 0) (ha : decoder r = .ok a s) :
    ∃ b, format.Admits b ∧ r.rest = b.encode ++ s.rest := by
  obtain ⟨b, hb, -, hp⟩ := (reads_decoder hr).1 ha
  exact ⟨b, hb, hp.rest⟩

theorem Shows.notes {n : Nat} {bytes : Bytes} {ids : List UInt32} (h : Shows n bytes ids)
    (acc : Array Symbol) (hr : r.depth = 0) (hb : r.rest = bytes) :
    (Decoder.items decoder n acc).Notes r ids.reverse := by
  induction h generalizing r acc with
  | done bytes => exact Silent.pure _ r
  | lost n begins =>
    subst hb
    have hn : decoder.Notes r [] := notes_of_not_begins begins
    cases hd : decoder r with
    | error e s => exact hn.bind_error hd
    | ok a s =>
      obtain ⟨b, -, he⟩ := begins_of_ok hr hd
      exact absurd (he ▸ begins_encode b s.rest) (begins b.id.raw)
  | broken n begins refused =>
    subst hb
    have hn := notes_of_begins begins
    cases hd : decoder r with
    | error e s => exact hn.bind_error hd
    | ok a s =>
      obtain ⟨b, hb, he⟩ := begins_of_ok hr hd
      exact absurd he (refused b s.rest hb)
  | @next n b rest ids admits behind ih =>
    obtain ⟨s, hp, rfl⟩ := (exists_past_iff (p := (· = rest)) [b.id.raw]).2 ⟨rest, hb, rfl⟩
    have hd : decoder r = .ok b.pruned s := (reads_decoder hr).2 ⟨b, admits, rfl, hp⟩
    have hn : decoder.Notes r [b.id.raw] := notes_of_begins (hb ▸ begins_encode b s.rest)
    rw [List.reverse_cons]
    exact hn.bind_ok hd (ih (acc.push b.pruned) (hp.depth.trans hr) rfl)

theorem exists_shows (n : Nat) (bytes : Bytes) : ∃ ids, Shows n bytes ids := by
  induction n generalizing bytes with
  | zero => exact ⟨[], .done bytes⟩
  | succ n ih =>
    by_cases hs : ∃ s rest, format.Admits s ∧ bytes = s.encode ++ rest
    · obtain ⟨s, rest, ha, rfl⟩ := hs
      obtain ⟨ids, hids⟩ := ih rest
      exact ⟨s.id.raw :: ids, .next ha hids⟩
    · by_cases hb : ∃ raw, Begins raw bytes
      · obtain ⟨raw, hb⟩ := hb
        exact ⟨[raw], .broken n hb fun s rest ha he => hs ⟨s, rest, ha, he⟩⟩
      · exact ⟨[], .lost n (not_exists.1 hb)⟩

end Symbol

namespace SymbolTable

/-- The identifiers that can be read of bytes that should be a table, in order. -/
inductive Shows : Bytes → List UInt32 → Prop
  | lost {bytes : Bytes} (counts : ∀ n rest, bytes ≠ word n ++ rest) : Shows bytes []
  | counted {n : UInt32} {rest : Bytes} {ids : List UInt32} (symbols : Symbol.Shows n.toNat rest ids) :
      Shows (word n ++ rest) ids

theorem exists_shows (bytes : Bytes) : ∃ ids, Shows bytes ids := by
  by_cases h : ∃ n rest, bytes = word n ++ rest
  · obtain ⟨n, rest, rfl⟩ := h
    obtain ⟨ids, hids⟩ := Symbol.exists_shows n.toNat rest
    exact ⟨ids, .counted hids⟩
  · exact ⟨[], .lost fun n rest he => h ⟨n, rest, he⟩⟩

theorem Shows.notes {bytes : Bytes} {ids : List UInt32} (h : Shows bytes ids) {r : Reader}
    (hr : r.depth = 0) (hb : r.rest = bytes) : decoder.Notes r ids.reverse := by
  refine Silent.notes_bind (fun _ => .pure _) ?_
  cases h with
  | lost counts =>
    cases hl : Decoder.length r with
    | error e s => exact (Silent.nested.length r).bind_error hl
    | ok n s => exact absurd (hb ▸ (length_eq_ok_iff.1 hl).2.rest) (counts _ s.rest)
  | @counted n rest ids symbols =>
    obtain ⟨s, hp, hs⟩ := (exists_past_iff (p := (· = rest)) []).2 ⟨rest, hb, rfl⟩
    have hn : Wire.length n.toNat = word n := by rw [Wire.length, UInt32.ofNat_toNat]
    have hlt := n.toNat_lt
    have hl : Decoder.length r = .ok n.toNat s :=
      length_eq_ok_iff.2 ⟨by simp only [maxLength]; omega, hn ▸ hp⟩
    exact Silent.nested.length.notes_after hl (symbols.notes #[] (hp.depth.trans hr) hs)

/-- The identifiers that are met in an input are those that can be read of it. -/
theorem Shows.ids_eq {bytes : Bytes} {ids : List UInt32} (h : Shows bytes ids) :
    (decodeAll decoder bytes).2 = ids.reverse := by
  have hn := (h.notes (r := .ofBytes bytes) rfl rfl).whole.ids_after
  rw [decodeAll_snd, hn]
  exact List.append_nil ids.reverse

theorem Shows.unique {bytes : Bytes} {ids others : List UInt32} (h : Shows bytes ids)
    (k : Shows bytes others) : others = ids :=
  List.reverse_injective (k.ids_eq.symm.trans h.ids_eq)

theorem Shows.toNat_upcoming {bytes : Bytes} {ids : List UInt32} (h : Shows bytes ids)
    (c : IdCounter) : (ofBytes c bytes).2.upcoming.toNat =
      (ids.map IdCounter.reserved).foldr max c.upcoming.toNat := by
  change (c.noteAll (decodeAll decoder bytes).2).upcoming.toNat = _
  rw [h.ids_eq, IdCounter.noteAll_of_perm (List.reverse_perm ids), IdCounter.toNat_noteAll]

/-- Several inputs decoded one after the other: what each gives, and where the counter ends. -/
def ofBytesEach (c : IdCounter) : List Bytes → List (Except DecodeError SymbolTable) × IdCounter
  | [] => ([], c)
  | input :: inputs =>
    let (table, c) := ofBytes c input
    let (tables, c) := ofBytesEach c inputs
    (table :: tables, c)

theorem ofBytesEach_fst (c d : IdCounter) (inputs : List Bytes) :
    (ofBytesEach c inputs).1 = inputs.map fun input => (ofBytes d input).1 := by
  induction inputs generalizing c with
  | nil => rfl
  | cons input inputs ih =>
    rw [List.map_cons, ← ih (ofBytes c input).2]
    rfl

theorem ofBytesEach_snd (c : IdCounter) (inputs : List Bytes) :
    (ofBytesEach c inputs).2 =
      inputs.foldl (fun c input => c.noteAll (decodeAll decoder input).2) c := by
  induction inputs generalizing c with
  | nil => rfl
  | cons input inputs ih => exact ih (ofBytes c input).2

/-- Wherever the counter stands, it ends at the same place for the inputs in another order. -/
theorem ofBytesEach_snd_of_perm {inputs others : List Bytes} (h : inputs.Perm others)
    (c : IdCounter) : (ofBytesEach c others).2 = (ofBytesEach c inputs).2 := by
  rw [ofBytesEach_snd, ofBytesEach_snd]
  have : RightCommutative fun (c : IdCounter) input => c.noteAll (decodeAll decoder input).2 :=
    ⟨fun c _ _ => c.noteAll_comm _ _⟩
  exact (h.foldl_eq c).symm

end SymbolTable

namespace History

/-- The same was given out, and the same is next; what was met may have been met in another order. -/
def Alike (h k : History) : Prop := h.counter = k.counter ∧ h.given = k.given

variable {h k : History}

theorem Alike.act (ha : Alike h k) (action : Action) : Alike (h.act action) (k.act action) := by
  obtain ⟨hc, hg⟩ := ha
  cases action <;> simp [Alike, History.act, issue, meet, hc, hg]

theorem Alike.run (ha : Alike h k) (actions : List Action) : Alike (h.run actions) (k.run actions) := by
  induction actions generalizing h k with
  | nil => exact ha
  | cons action actions ih => exact ih (ha.act action)

theorem run_tables (h : History) (inputs : List Bytes) :
    (h.run (inputs.map .table)).counter = (SymbolTable.ofBytesEach h.counter inputs).2 ∧
      (h.run (inputs.map .table)).given = h.given := by
  induction inputs generalizing h with
  | nil => exact ⟨rfl, rfl⟩
  | cons input inputs ih => exact ih (h.act (.table input))

theorem alike_run_tables {inputs others : List Bytes} (hp : inputs.Perm others) (h : History) :
    Alike (h.run (others.map .table)) (h.run (inputs.map .table)) := by
  obtain ⟨hc, hg⟩ := run_tables h inputs
  obtain ⟨kc, kg⟩ := run_tables h others
  rw [Alike, hc, hg, kc, kg, SymbolTable.ofBytesEach_snd_of_perm hp]
  exact ⟨rfl, rfl⟩

end History

namespace SymbolTable

/-- Of the counter decoding knows a maximum only: what an input gives does not depend on it, and in
whichever order inputs are decoded, each gives what it gives alone, the counter ends at the same place
and everything that follows gives out the same identifiers. -/
theorem ofBytes_in_any_order :
    (∀ bytes, ∃ ids, Shows bytes ids ∧ (∀ others, Shows bytes others → others = ids) ∧
      decoder.whole.Notes (.ofBytes bytes) ids.reverse ∧
      ∀ c : IdCounter,
        (ofBytes c bytes).2.upcoming.toNat =
          (ids.map IdCounter.reserved).foldr max c.upcoming.toNat ∧
        ∀ d, (ofBytes d bytes).1 = (ofBytes c bytes).1) ∧
    ∀ inputs others : List Bytes, inputs.Perm others → ∀ h : History,
      (∀ d, (ofBytesEach h.counter inputs).1 = inputs.map (fun input => (ofBytes d input).1) ∧
        (ofBytesEach h.counter others).1 = others.map fun input => (ofBytes d input).1) ∧
      (ofBytesEach h.counter others).2 = (ofBytesEach h.counter inputs).2 ∧
      ∀ later, (h.run (others.map .table ++ later)).given =
        (h.run (inputs.map .table ++ later)).given := by
  refine ⟨fun bytes => ?_, fun inputs others hp h => ⟨fun d => ⟨?_, ?_⟩, ?_, fun later => ?_⟩⟩
  · obtain ⟨ids, hids⟩ := exists_shows bytes
    refine ⟨ids, hids, fun others hothers => hids.unique hothers, ?_, fun c => ⟨?_, fun d => rfl⟩⟩
    · exact (hids.notes rfl rfl).whole
    · exact hids.toNat_upcoming c
  · exact ofBytesEach_fst h.counter d inputs
  · exact ofBytesEach_fst h.counter d others
  · exact ofBytesEach_snd_of_perm hp h.counter
  · rw [History.run, History.run, List.foldl_append, List.foldl_append]
    exact ((History.alike_run_tables hp h).run later).2

/-- A table that breaks off behind the identifier of its symbol, before and after one that is whole:
the next symbol is the ninth in both cases. -/
theorem ofBytes_cut_table_in_any_order :
    let symbol (raw : UInt32) : Symbol := ⟨⟨raw⟩, ⟨⟨"A", "A"⟩, 1, 2, "a"⟩, none, [], .managedClass⟩
    let cut := (⟨[symbol 8]⟩ : SymbolTable).encode.take 9
    let whole := (⟨[symbol 5]⟩ : SymbolTable).encode
    [cut, whole].Perm [whole, cut] ∧
      (ofBytesEach .start [whole, cut]).1 = [.ok ⟨[symbol 5]⟩, .error (.unexpectedEnd 9 4 0)] ∧
      (ofBytesEach .start [whole, cut]).2 = (ofBytesEach .start [cut, whole]).2 ∧
      (History.start.run [.table whole, .table cut, .next]).given = [9] := by
  intro symbol cut whole
  have hp : [cut, whole].Perm [whole, cut] := List.Perm.swap whole cut []
  have h := ofBytes_in_any_order.2 [cut, whole] [whole, cut] hp .start
  refine ⟨hp, ?_, h.2.1, ?_⟩
  · rw [show (ofBytesEach .start [whole, cut]).1 = _ from (h.1 .start).2]
    decide +kernel
  · rw [show (History.start.run [.table whole, .table cut, .next]).given = _ from h.2.2 [.next]]
    decide +kernel

end SymbolTable

end NativeBridge
