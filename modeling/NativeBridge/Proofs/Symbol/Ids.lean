import NativeBridge.Proofs.Symbol.Representable

/-! # Which identifiers are given out

Beside the counter a history is kept of the identifiers that were given out and of the raw ones that
were met. As long as a number is left that is greater than all that were met and has not been given
out, the counter stands at such a number. Once there is none it goes on all the same: behind the
greatest number it stays or begins again at zero, and gives out what was met or given before.
-/
namespace NativeBridge

open Wire

structure History where
  counter : IdCounter
  given : List UInt32
  met : List UInt32

namespace History

/-- What moves the counter: new symbols and identifiers, raw identifiers, and inputs that are decoded
as a symbol or a table, whether they are one or not. -/
inductive Action where
  | create (info : SymbolInfo) (origin : Option SymbolInfo) (typeArguments : List Ty)
      (variant : SymbolVariant)
  | next
  | raw (raw : UInt32)
  | symbol (bytes : Bytes)
  | table (bytes : Bytes)

def start : History := ⟨.start, [], []⟩

def issue (h : History) : History :=
  ⟨h.counter.fresh.2, h.counter.fresh.1.raw :: h.given, h.met⟩

def meet (h : History) (raws : List UInt32) : History :=
  ⟨h.counter.noteAll raws, h.given, raws ++ h.met⟩

def act (h : History) : Action → History
  | .create info origin typeArguments variant =>
    let (s, counter) := Symbol.create h.counter info origin typeArguments variant
    ⟨counter, s.id.raw :: h.given, h.met⟩
  | .next => h.issue
  | .raw raw => ⟨h.counter.note raw, h.given, raw :: h.met⟩
  | .symbol bytes => h.meet (decodeAll Symbol.decoder bytes).2
  | .table bytes =>
    ⟨(SymbolTable.ofBytes h.counter bytes).2, h.given,
      (decodeAll SymbolTable.decoder bytes).2 ++ h.met⟩

def run (h : History) (actions : List Action) : History := actions.foldl act h

/-- An identifier that may be given out: greater than all that were met, and not given out yet. -/
def Suits (h : History) (id : UInt32) : Prop := (∀ raw ∈ h.met, raw < id) ∧ id ∉ h.given

variable {h : History} {id raw : UInt32}

theorem meet_cons (raws : List UInt32) : h.meet (raw :: raws) = (h.meet raws).meet [raw] := rfl

theorem suits_issue_iff : h.issue.Suits id ↔ id ≠ h.counter.upcoming ∧ h.Suits id := by
  simp only [Suits, issue, IdCounter.fresh, List.mem_cons, not_or, ne_eq]
  tauto

theorem suits_meet_iff : (h.meet [raw]).Suits id ↔ raw < id ∧ h.Suits id := by
  simp only [Suits, meet, List.cons_append, List.nil_append, List.forall_mem_cons, and_assoc]

theorem lt_add_one_iff {c : UInt32} (hc : c ≠ IdCounter.greatest) :
    id < c + 1 ↔ id < c ∨ id = c := by
  have hlt := c.toNat_lt
  have hne : c.toNat ≠ 4294967295 := fun he => hc (UInt32.toNat_inj.1 he)
  rw [UInt32.lt_iff_toNat_lt, UInt32.lt_iff_toNat_lt, UInt32.toNat_add, UInt32.toNat_one,
    ← UInt32.toNat_inj]
  omega

theorem lt_greatest_or_eq (id : UInt32) : id < IdCounter.greatest ∨ id = IdCounter.greatest := by
  have hlt := id.toNat_lt
  have hg : IdCounter.greatest.toNat = 4294967295 := rfl
  rw [UInt32.lt_iff_toNat_lt, ← UInt32.toNat_inj, hg]
  omega

/-- The counter stands before all that suits, and all before it is given out or exceeded. -/
structure Ahead (h : History) : Prop where
  pos : 0 < h.counter.upcoming
  met_lt : ∀ raw ∈ h.met, raw < h.counter.upcoming
  given_lt : ∀ id ∈ h.given, id < h.counter.upcoming
  given_pos : ∀ id ∈ h.given, 0 < id
  taken : ∀ id, 0 < id → id < h.counter.upcoming → ¬h.Suits id

/-- Every identifier but zero was given out, and none was met. -/
structure Wrapped (h : History) : Prop where
  upcoming_eq : h.counter.upcoming = 0
  met_eq : h.met = []
  zero_not_mem : 0 ∉ h.given
  taken : ∀ id, 0 < id → ¬h.Suits id

def Exhausted (h : History) : Prop := ∀ id, ¬h.Suits id

theorem ahead_start : Ahead start where
  pos := by decide
  met_lt := by simp [start]
  given_lt := by simp [start]
  given_pos := by simp [start]
  taken := by
    intro id hpos hlt
    have hone : id < 0 + 1 := hlt
    rcases (lt_add_one_iff (by decide)).1 hone with hz | rfl
    · exact absurd hz UInt32.not_lt_zero
    · exact absurd hpos (UInt32.lt_irrefl 0)

/-- What was given out is not given out again before the numbers are at an end. -/
theorem Ahead.issue (ha : Ahead h) (hc : h.counter.upcoming ≠ IdCounter.greatest) :
    Ahead h.issue where
  pos := (lt_add_one_iff hc).2 (.inl ha.pos)
  met_lt raw hr := (lt_add_one_iff hc).2 (.inl (ha.met_lt raw hr))
  given_lt id hid := by
    rcases List.mem_cons.1 hid with rfl | hid
    · exact (lt_add_one_iff hc).2 (.inr rfl)
    · exact (lt_add_one_iff hc).2 (.inl (ha.given_lt id hid))
  given_pos id hid := by
    rcases List.mem_cons.1 hid with rfl | hid
    · exact ha.pos
    · exact ha.given_pos id hid
  taken id hpos hlt := by
    rw [suits_issue_iff]
    rintro ⟨hne, hs⟩
    rcases (lt_add_one_iff hc).1 hlt with hlt | rfl
    · exact ha.taken id hpos hlt hs
    · exact hne rfl

/-- With the greatest number given out, zero is left if nothing was met. -/
theorem Ahead.issue_greatest (ha : Ahead h) (hc : h.counter.upcoming = IdCounter.greatest) :
    Wrapped h.issue ∨ Exhausted h.issue := by
  have htaken : ∀ id, 0 < id → ¬h.issue.Suits id := by
    intro id hpos hs
    obtain ⟨hne, hs⟩ := suits_issue_iff.1 hs
    rw [hc] at hne
    exact ha.taken id hpos (hc ▸ (lt_greatest_or_eq id).resolve_right hne) hs
  cases hm : h.met with
  | nil =>
    refine .inl ⟨?_, hm, ?_, htaken⟩
    · rw [History.issue, IdCounter.fresh, hc]
      rfl
    · intro hz
      rcases List.mem_cons.1 hz with hz | hz
      · exact absurd (hz ▸ ha.pos) (UInt32.lt_irrefl 0)
      · exact absurd (ha.given_pos 0 hz) (UInt32.lt_irrefl 0)
  | cons raw raws =>
    refine .inr fun id hs => htaken id ?_ hs
    have hraw : raw < id := hs.1 raw (hm ▸ List.mem_cons_self)
    exact UInt32.lt_of_le_of_lt UInt32.zero_le hraw

/-- Nothing is greater than the greatest number, once that was met. -/
theorem exhausted_meet_greatest : Exhausted (h.meet [IdCounter.greatest]) := by
  intro id hs
  have hlt : IdCounter.greatest < id := (suits_meet_iff.1 hs).1
  rcases lt_greatest_or_eq id with hid | rfl
  · exact UInt32.lt_asymm hlt hid
  · exact UInt32.lt_irrefl _ hlt

theorem Ahead.meet (ha : Ahead h) (hr : raw ≠ IdCounter.greatest) : Ahead (h.meet [raw]) := by
  have hafter : IdCounter.after raw = raw + 1 := if_neg hr
  have hself : raw < raw + 1 := (lt_add_one_iff hr).2 (.inr rfl)
  have hu : (h.meet [raw]).counter.upcoming =
      if h.counter.upcoming < raw + 1 then raw + 1 else h.counter.upcoming := by
    rw [← hafter]
    rfl
  -- the counter is moved past the number, unless it stands there already
  split at hu
  · rename_i hlt
    refine ⟨?_, ?_, ?_, ha.given_pos, ?_⟩
    · exact hu ▸ UInt32.lt_trans ha.pos hlt
    · intro r hm
      rcases List.mem_cons.1 hm with rfl | hm
      · exact hu ▸ hself
      · exact hu ▸ UInt32.lt_trans (ha.met_lt r hm) hlt
    · intro id hid
      exact hu ▸ UInt32.lt_trans (ha.given_lt id hid) hlt
    · intro id _ hid hs
      have hgt : raw < id := (suits_meet_iff.1 hs).1
      rcases (lt_add_one_iff hr).1 (hu ▸ hid) with hid | rfl
      · exact UInt32.lt_asymm hgt hid
      · exact UInt32.lt_irrefl _ hgt
  · rename_i hge
    refine ⟨hu ▸ ha.pos, ?_, fun id hid => hu ▸ ha.given_lt id hid, ha.given_pos, ?_⟩
    · intro r hm
      rcases List.mem_cons.1 hm with rfl | hm
      · exact hu ▸ UInt32.lt_of_lt_of_le hself (UInt32.not_lt.1 hge)
      · exact hu ▸ ha.met_lt r hm
    · intro id hpos hid hs
      exact ha.taken id hpos (hu ▸ hid) (suits_meet_iff.1 hs).2

theorem Wrapped.exhausted_issue (hw : Wrapped h) : Exhausted h.issue := by
  intro id hs
  obtain ⟨hne, hs⟩ := suits_issue_iff.1 hs
  rw [hw.upcoming_eq] at hne
  exact hw.taken id (UInt32.pos_iff_ne_zero.2 hne) hs

theorem Wrapped.exhausted_meet (hw : Wrapped h) (raw : UInt32) : Exhausted (h.meet [raw]) := by
  intro id hs
  obtain ⟨hlt, hs⟩ := suits_meet_iff.1 hs
  exact hw.taken id (UInt32.lt_of_le_of_lt UInt32.zero_le hlt) hs

/-- What every move of the counter preserves. -/
def Kept (h : History) : Prop := Ahead h ∨ Wrapped h ∨ Exhausted h

theorem Kept.issue (hk : Kept h) : Kept h.issue := by
  rcases hk with ha | hw | he
  · by_cases hc : h.counter.upcoming = IdCounter.greatest
    · exact .inr (ha.issue_greatest hc)
    · exact .inl (ha.issue hc)
  · exact .inr (.inr hw.exhausted_issue)
  · exact .inr (.inr fun id hs => he id (suits_issue_iff.1 hs).2)

theorem Kept.meet (hk : Kept h) (raws : List UInt32) : Kept (h.meet raws) := by
  induction raws with
  | nil => exact hk
  | cons raw raws ih =>
    rw [meet_cons]
    rcases ih with ha | hw | he
    · by_cases hr : raw = IdCounter.greatest
      · exact .inr (.inr (hr ▸ exhausted_meet_greatest))
      · exact .inl (ha.meet hr)
    · exact .inr (.inr (hw.exhausted_meet raw))
    · exact .inr (.inr fun id hs => he id (suits_meet_iff.1 hs).2)

theorem Kept.act (hk : Kept h) (action : Action) : Kept (h.act action) := by
  cases action with
  | create info origin typeArguments variant => exact hk.issue
  | next => exact hk.issue
  | raw raw => exact hk.meet [raw]
  | symbol bytes => exact hk.meet _
  | table bytes => exact hk.meet _

theorem Kept.run (hk : Kept h) (actions : List Action) : Kept (h.run actions) := by
  induction actions generalizing h with
  | nil => exact hk
  | cons action actions ih => exact ih (hk.act action)

/-- The counter stands at a number that suits whenever there is one. -/
theorem Kept.suits_upcoming (hk : Kept h) (hs : h.Suits id) : h.Suits h.counter.upcoming := by
  rcases hk with ha | hw | he
  · refine ⟨ha.met_lt, fun hm => ?_⟩
    exact UInt32.lt_irrefl _ (ha.given_lt _ hm)
  · rw [Suits, hw.upcoming_eq, hw.met_eq]
    exact ⟨List.forall_mem_nil _, hw.zero_not_mem⟩
  · exact absurd hs (he id)

theorem met_act_suffix (h : History) (action : Action) : h.met <:+ (h.act action).met := by
  cases action with
  | create info origin typeArguments variant => exact List.suffix_rfl
  | next => exact List.suffix_rfl
  | raw raw => exact List.suffix_cons raw h.met
  | symbol bytes => exact List.suffix_append _ h.met
  | table bytes => exact List.suffix_append _ h.met

/-- What is met stays met. -/
theorem met_run_suffix (h : History) (actions : List Action) : h.met <:+ (h.run actions).met := by
  induction actions generalizing h with
  | nil => exact List.suffix_rfl
  | cons action actions ih => exact (met_act_suffix h action).trans (ih (h.act action))

theorem mem_met_run {action : Action} {actions : List Action} (ha : action ∈ actions)
    (hm : ∀ h : History, raw ∈ (h.act action).met) : raw ∈ (h.run actions).met := by
  obtain ⟨before, after, rfl⟩ := List.append_of_mem ha
  rw [run, List.foldl_append, List.foldl_cons]
  exact (met_run_suffix _ after).mem (hm (h.run before))

theorem mem_ids_of_symbol {bytes : Bytes} {s : Symbol} {ids : List UInt32}
    (hs : decodeAll Symbol.decoder bytes = (.ok s, ids)) : s.id.raw ∈ ids := by
  obtain ⟨t, _, rfl, _, rfl⟩ := Symbol.reads_decoder.decodeAll_eq_ok_iff.1 hs
  exact List.mem_singleton_self t.id.raw

theorem mem_ids_of_table {bytes : Bytes} {t : SymbolTable} {ids : List UInt32}
    (ht : decodeAll SymbolTable.decoder bytes = (.ok t, ids)) {s : Symbol} (hs : s ∈ t.symbols) :
    s.id.raw ∈ ids := by
  obtain ⟨u, _, rfl, _, rfl⟩ := SymbolTable.reads_decoder.decodeAll_eq_ok_iff.1 ht
  obtain ⟨v, hv, rfl⟩ := List.mem_map.1 hs
  exact List.mem_flatMap.2 ⟨v, List.mem_reverse.2 hv, List.mem_singleton_self v.id.raw⟩

/-- In any run the next identifier is greater than all that were met and different from all that were
given out just where some number is; the identifiers of what was decoded are among those met. -/
theorem suits_fresh_iff (actions : List Action) :
    let h := start.run actions
    (h.Suits h.counter.fresh.1.raw ↔ ∃ id, h.Suits id) ∧
    (∀ bytes s, .symbol bytes ∈ actions → (decodeAll Symbol.decoder bytes).1 = .ok s →
      s.id.raw ∈ h.met) ∧
    ∀ bytes t, .table bytes ∈ actions → (decodeAll SymbolTable.decoder bytes).1 = .ok t →
      ∀ s ∈ t.symbols, s.id.raw ∈ h.met := by
  intro h
  have hk : Kept h := Kept.run (.inl ahead_start) actions
  refine ⟨⟨fun hs => ⟨_, hs⟩, fun ⟨_, hs⟩ => hk.suits_upcoming hs⟩, ?_, ?_⟩
  · intro bytes s hb hs
    exact mem_met_run hb fun _ => List.mem_append_left _ (mem_ids_of_symbol (Prod.ext hs rfl))
  · intro bytes t hb ht s hs
    exact mem_met_run hb fun _ => List.mem_append_left _ (mem_ids_of_table (Prod.ext ht rfl) hs)

/-- The greatest number is given out although it was met. -/
theorem not_forall_suits_fresh :
    ¬∀ actions, (start.run actions).Suits (start.run actions).counter.fresh.1.raw := by
  intro hall
  have hlt := (hall [.raw 4294967295]).1 4294967295 List.mem_cons_self
  exact absurd hlt (by decide)

end History

end NativeBridge
