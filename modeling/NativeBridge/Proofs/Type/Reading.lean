import NativeBridge.Proofs.Type.Readable

/-! # Which types are read

Where `budget` levels may be entered, reading accepts exactly the encodings of readable trees of at
most that height, and what it gives is the tree without its empty applications. The proof follows
the budget, which is what the reading itself is recursive in.
-/
namespace NativeBridge.Ty
open Wire

section Bodies
variable {inner : Decoder Ty} {budget level : Nat}

theorem builtinBody_eq_ok_iff {r s : Reader} {t : Ty} : builtinBody r = .ok t s ↔
    ∃ k, builtin k = t ∧ r.Past [UInt8.ofNat k.ordinal] [] s := by
  simp only [builtinBody, Run.bind_eq_ok_iff, Decoder.position_eq_ok_iff,
    Decoder.byte_eq_ok_iff]
  constructor
  · rintro ⟨_, _, ⟨rfl, rfl⟩, b, u, hu, h⟩
    cases hk : Kind.ofOrdinal? b.toNat with
    | none =>
      rw [hk] at h
      exact absurd h Run.throw_ne_ok
    | some k =>
      rw [hk] at h
      obtain ⟨rfl, rfl⟩ := Run.pure_eq_ok_iff.1 h
      have hb : UInt8.ofNat k.ordinal = b := by
        rw [Kind.ordinal_of_ofOrdinal? hk, UInt8.ofNat_toNat]
      exact ⟨k, rfl, hb ▸ hu⟩
  · rintro ⟨k, rfl, h⟩
    have hk : (UInt8.ofNat k.ordinal).toNat = k.ordinal :=
      UInt8.toNat_ofNat_of_lt' (k.ordinal_lt.trans (by decide))
    refine ⟨r.position, r, ⟨rfl, rfl⟩, _, s, h, ?_⟩
    rw [hk, Kind.ofOrdinal?_ordinal]
    exact Run.pure_eq_ok_iff.2 ⟨rfl, rfl⟩

theorem arrayBody_eq_ok_iff (hi : inner.Reads level (format budget)) {r s : Reader} {t : Ty}
    (hr : r.depth = level) : arrayBody inner r = .ok t s ↔
      ∃ e d, ((format budget).Admits e ∧ d ≠ 0) ∧ array e.pruned d = t ∧
        r.Past (e.encode ++ word d) [] s := by
  simp only [arrayBody, Run.bind_eq_ok_iff, Decoder.position_eq_ok_iff, Decoder.word_eq_ok_iff]
  constructor
  · rintro ⟨_, u, he, _, _, ⟨rfl, rfl⟩, d, v, hd, h⟩
    obtain ⟨e, hea, rfl, hp⟩ := (hi hr).1 he
    obtain ⟨h0, h⟩ := Run.check_eq_ok_iff.1 h
    obtain ⟨rfl, rfl⟩ := Run.pure_eq_ok_iff.1 h
    exact ⟨e, d, ⟨hea, h0⟩, rfl, hp.trans hd⟩
  · rintro ⟨e, d, ⟨he, h0⟩, rfl, hp⟩
    obtain ⟨u, hu, hd⟩ := Reader.Past.split (i := []) (j := []) hp
    refine ⟨e.pruned, u, (hi hr).2 ⟨e, he, rfl, hu⟩, u.position, u, ⟨rfl, rfl⟩, d, s, hd, ?_⟩
    rw [if_neg h0]
    exact Run.pure_eq_ok_iff.2 ⟨rfl, rfl⟩

theorem structBody_eq_ok_iff (hi : inner.Reads level (format budget)) {r s : Reader} {t : Ty}
    (hr : r.depth = level) : structBody inner r = .ok t s ↔
      ∃ n fs, (SymbolName.format.Admits n ∧ (format budget).list.Admits fs) ∧
        struct n (fs.map pruned) = t ∧ r.Past (n.encode ++ list encode fs) [] s := by
  have hids := list_ids_eq_nil (f := format budget) fun _ => rfl
  simp only [structBody, Run.bind_eq_ok_iff, SymbolName.decoder_eq_ok_iff,
    Run.pure_eq_ok_iff]
  constructor
  · rintro ⟨n, u, ⟨hn, hu⟩, _, v, hf, rfl, rfl⟩
    obtain ⟨fs, hfs, rfl, hp⟩ := (hi.list (hu.depth.trans hr)).1 hf
    rw [hids] at hp
    exact ⟨n, fs, ⟨hn, hfs⟩, rfl, hu.trans hp⟩
  · rintro ⟨n, fs, ⟨hn, hfs⟩, rfl, hp⟩
    obtain ⟨u, hu, hv⟩ := Reader.Past.split (i := []) (j := []) hp
    have hf := (hi.list (hu.depth.trans hr)).2 ⟨fs, hfs, rfl, (hids fs).symm ▸ hv⟩
    exact ⟨n, u, ⟨hn, hu⟩, _, s, hf, rfl, rfl⟩

theorem referenceBody_eq_ok_iff {r s : Reader} {t : Ty} : referenceBody r = .ok t s ↔
    ∃ n, SymbolName.format.Admits n ∧ reference n = t ∧ r.Past n.encode [] s := by
  simp only [referenceBody, Run.bind_eq_ok_iff, SymbolName.decoder_eq_ok_iff,
    Run.pure_eq_ok_iff]
  constructor
  · rintro ⟨n, u, ⟨hn, hu⟩, rfl, rfl⟩
    exact ⟨n, hn, rfl, hu⟩
  · rintro ⟨n, hn, rfl, hp⟩
    exact ⟨n, s, ⟨hn, hp⟩, rfl, rfl⟩

/-- An argument is an optional type. -/
theorem reads_argumentWith (hi : inner.Reads level (format budget)) :
    (argumentWith inner).Reads level (argumentFormat budget) := by
  intro r s out hr
  simp only [argumentWith, Run.bind_eq_ok_iff]
  constructor
  · rintro ⟨_, u, ho, h⟩
    obtain ⟨o, hoa, rfl, hp⟩ := (hi.optional hr).1 ho
    cases o with
    | none =>
      obtain ⟨rfl, rfl⟩ := Run.pure_eq_ok_iff.1 h
      refine ⟨.star, by simp [argumentFormat], rfl, ?_⟩
      simpa [argumentFormat, encodeArgument_star, format, Format.optional, Wire.optional] using hp
    | some t =>
      obtain ⟨rfl, rfl⟩ := Run.pure_eq_ok_iff.1 h
      refine ⟨.concrete t, ?_, rfl, ?_⟩
      · intro u hu
        exact hoa u (by rw [TypeArgument.concrete.inj hu]; rfl)
      · simpa [argumentFormat, encodeArgument_concrete, format, Format.optional, Wire.optional] using hp
  · rintro ⟨a, ha, rfl, hp⟩
    cases a with
    | star =>
      refine ⟨none, s, (hi.optional hr).2 ⟨none, by simp [Format.optional], rfl, ?_⟩, ?_⟩
      · simpa [argumentFormat, encodeArgument_star, format, Format.optional, Wire.optional] using hp
      · exact Run.pure_eq_ok_iff.2 ⟨rfl, rfl⟩
    | concrete t =>
      refine ⟨some t.pruned, s, (hi.optional hr).2 ⟨some t, ?_, rfl, ?_⟩, ?_⟩
      · intro u hu
        cases hu
        exact ha t rfl
      · simpa [argumentFormat, encodeArgument_concrete, format, Format.optional, Wire.optional] using hp
      · exact Run.pure_eq_ok_iff.2 ⟨rfl, rfl⟩

theorem coneBody_eq_ok_iff (hi : inner.Reads level (format budget)) {r s : Reader} {t : Ty}
    (hr : r.depth = level) : coneBody inner r = .ok t s ↔
      ∃ g as, ((format budget).Admits g ∧ (argumentFormat budget).list.Admits as) ∧
        (cone g as).pruned = t ∧ r.Past (g.encode ++ list encodeArgument as) [] s := by
  have hids := list_ids_eq_nil (f := argumentFormat budget) fun _ => rfl
  have ha := (reads_argumentWith hi).list
  simp only [coneBody, Run.bind_eq_ok_iff, Run.pure_eq_ok_iff, pruned, prunedArguments_eq]
  constructor
  · rintro ⟨_, u, hg, _, v, hf, rfl, rfl⟩
    obtain ⟨g, hga, rfl, hu⟩ := (hi hr).1 hg
    obtain ⟨as, has, rfl, hv⟩ := (ha (hu.depth.trans hr)).1 hf
    rw [hids] at hv
    exact ⟨g, as, ⟨hga, has⟩, rfl, hu.trans hv⟩
  · rintro ⟨g, as, ⟨hg, has⟩, rfl, hp⟩
    obtain ⟨u, hu, hv⟩ := Reader.Past.split (i := []) (j := []) hp
    have hf := (ha (hu.depth.trans hr)).2 ⟨as, has, rfl, (hids as).symm ▸ hv⟩
    exact ⟨g.pruned, u, (hi hr).2 ⟨g, hg, rfl, hu⟩, _, s, hf, rfl, rfl⟩

def tag : Ty → UInt8
  | builtin _ => builtinTag
  | array _ _ => arrayTag
  | struct _ _ => structTag
  | reference _ => referenceTag
  | cone _ _ => coneTag

theorem encode_eq_tag_cons (t : Ty) : ∃ rest, t.encode = t.tag :: rest := by
  cases t with
  | builtin k => exact ⟨_, encode_builtin k⟩
  | array e d => exact ⟨_, encode_array e d⟩
  | struct n fs => exact ⟨_, encode_struct n fs⟩
  | reference n => exact ⟨_, encode_reference n⟩
  | cone g as => exact ⟨_, encode_cone g as⟩

/-- Behind its tag, each constructor has its own body. -/
theorem tagged_eq_ok_iff (hi : inner.Reads level (format budget)) (start : Nat) {r s : Reader}
    {t : Ty} {tag : UInt8} {rest : Bytes} (hr : r.depth = level) (ht : r.rest = tag :: rest) :
    tagged inner start tag r = .ok t s ↔
      ∃ raw, PartsAdmitted budget raw ∧ raw.pruned = t ∧ r.Past raw.encode [] s := by
  constructor
  · intro h
    unfold tagged at h
    split_ifs at h with h0 h1 h2 h3 h4
    · obtain ⟨u, hu, h⟩ := (Decoder.byte_then_eq_ok_iff ht).1 h
      obtain ⟨k, rfl, hp⟩ := builtinBody_eq_ok_iff.1 h
      refine ⟨builtin k, trivial, rfl, ?_⟩
      rw [encode_builtin, ← h0]
      exact hu.trans hp
    · obtain ⟨u, hu, h⟩ := (Decoder.byte_then_eq_ok_iff ht).1 h
      obtain ⟨e, d, ha, rfl, hp⟩ := (arrayBody_eq_ok_iff hi (hu.depth.trans hr)).1 h
      refine ⟨array e d, ha, rfl, ?_⟩
      rw [encode_array, ← h1]
      exact hu.trans hp
    · obtain ⟨u, hu, h⟩ := (Decoder.byte_then_eq_ok_iff ht).1 h
      obtain ⟨n, fs, ha, rfl, hp⟩ := (structBody_eq_ok_iff hi (hu.depth.trans hr)).1 h
      refine ⟨struct n fs, ha, by rw [pruned, prunedAll_eq], ?_⟩
      rw [encode_struct, ← h2]
      exact hu.trans hp
    · obtain ⟨u, hu, h⟩ := (Decoder.byte_then_eq_ok_iff ht).1 h
      obtain ⟨n, ha, rfl, hp⟩ := referenceBody_eq_ok_iff.1 h
      refine ⟨reference n, ha, rfl, ?_⟩
      rw [encode_reference, ← h3]
      exact hu.trans hp
    · obtain ⟨u, hu, h⟩ := (Decoder.byte_then_eq_ok_iff ht).1 h
      obtain ⟨g, as, ha, rfl, hp⟩ := (coneBody_eq_ok_iff hi (hu.depth.trans hr)).1 h
      refine ⟨cone g as, ha, rfl, ?_⟩
      rw [encode_cone, ← h4]
      exact hu.trans hp
    · exact absurd h Run.throw_ne_ok
  · rintro ⟨raw, ha, rfl, hp⟩
    cases raw with
    | builtin k =>
      rw [encode_builtin] at hp
      obtain ⟨rfl, u, hu, hv⟩ := (Reader.past_cons_iff ht).1 hp
      exact (Decoder.byte_then_eq_ok_iff ht).2 ⟨u, hu, builtinBody_eq_ok_iff.2 ⟨k, rfl, hv⟩⟩
    | array e d =>
      rw [encode_array] at hp
      obtain ⟨rfl, u, hu, hv⟩ := (Reader.past_cons_iff ht).1 hp
      have hd := (arrayBody_eq_ok_iff hi (hu.depth.trans hr)).2 ⟨e, d, ha, rfl, hv⟩
      exact (Decoder.byte_then_eq_ok_iff ht).2 ⟨u, hu, hd⟩
    | struct n fs =>
      rw [encode_struct] at hp
      obtain ⟨rfl, u, hu, hv⟩ := (Reader.past_cons_iff ht).1 hp
      have hf : struct n (fs.map pruned) = (struct n fs).pruned := by rw [pruned, prunedAll_eq]
      have hd := (structBody_eq_ok_iff hi (hu.depth.trans hr)).2 ⟨n, fs, ha, hf, hv⟩
      exact (Decoder.byte_then_eq_ok_iff ht).2 ⟨u, hu, hd⟩
    | reference n =>
      rw [encode_reference] at hp
      obtain ⟨rfl, u, hu, hv⟩ := (Reader.past_cons_iff ht).1 hp
      exact (Decoder.byte_then_eq_ok_iff ht).2 ⟨u, hu, referenceBody_eq_ok_iff.2 ⟨n, ha, rfl, hv⟩⟩
    | cone g as =>
      rw [encode_cone] at hp
      obtain ⟨rfl, u, hu, hv⟩ := (Reader.past_cons_iff ht).1 hp
      have hd := (coneBody_eq_ok_iff hi (hu.depth.trans hr)).2 ⟨g, as, ha, rfl, hv⟩
      exact (Decoder.byte_then_eq_ok_iff ht).2 ⟨u, hu, hd⟩

end Bodies

/-- Reading a type, with as many levels to enter as the limit of nesting leaves. -/
theorem reads_decodeWithin {budget level : Nat} (h : level + budget ≤ maxNesting) :
    (decodeWithin budget).Reads level (format budget) := by
  induction budget generalizing level with
  | zero =>
    intro r s t _
    simp only [decodeWithin, Run.bind_eq_ok_iff]
    constructor
    · rintro ⟨_, _, _, h⟩
      exact absurd h Run.throw_ne_ok
    · rintro ⟨b, hb, _⟩
      exact absurd hb (not_admits_zero b)
  | succ budget ih =>
    intro r s t hr
    have hi : (decodeWithin budget).Reads (level + 1) (format budget) := ih (by omega)
    simp only [decodeWithin, Run.bind_eq_ok_iff, Decoder.position_eq_ok_iff,
      Decoder.enter_eq_ok_iff, Decoder.peek_eq_ok_iff, Decoder.leaving_eq_ok_iff]
    constructor
    · rintro ⟨start, _, ⟨rfl, rfl⟩, _, below, ⟨_, rfl⟩, tag, _, ⟨rfl, rest, ht⟩, u, v, ⟨w, hw, rfl⟩, h⟩
      obtain ⟨raw, ha, rfl, hp⟩ := (tagged_eq_ok_iff hi _ (by simp [hr]) ht).1 hw
      obtain ⟨hc, h⟩ := Run.check_eq_ok_iff.1 h
      obtain ⟨rfl, rfl⟩ := Run.pure_eq_ok_iff.1 h
      have hs := ha.checked_iff.1 (Bool.eq_false_iff.2 hc)
      exact ⟨raw, admits_succ_iff.2 ⟨ha, hs⟩, rfl, Reader.past_deeper_iff.1 ⟨w, hp, rfl⟩⟩
    · rintro ⟨raw, hb, rfl, hp⟩
      obtain ⟨ha, hs⟩ := admits_succ_iff.1 hb
      change r.Past raw.encode [] s at hp
      obtain ⟨rest, he⟩ := encode_eq_tag_cons raw
      have ht : r.rest = raw.tag :: (rest ++ s.rest) := by rw [hp.rest, he, List.cons_append]
      obtain ⟨w, hw, rfl⟩ := Reader.past_deeper_iff.2 hp
      have hd : ({ r with depth := r.depth + 1 } : Reader).depth = level + 1 := congrArg (· + 1) hr
      have hg := (tagged_eq_ok_iff hi r.position hd ht).2 ⟨raw, ha, rfl, hw⟩
      refine ⟨r.position, r, ⟨rfl, rfl⟩, (), _, ⟨by omega, rfl⟩, raw.tag, _, ⟨rfl, _, ht⟩,
        raw.pruned, _, ⟨w, hg, rfl⟩, ?_⟩
      rw [ha.checked_iff.2 hs]
      exact Run.pure_eq_ok_iff.2 ⟨rfl, rfl⟩

theorem delimited_argumentFormat {budget : Nat} (h : (format budget).Delimited) :
    (argumentFormat budget).Delimited := by
  intro a b r s ha hb he
  cases a with
  | star =>
    cases b with
    | star => exact ⟨rfl, (flag_append_inj he).2⟩
    | concrete u => simp [argumentFormat, encodeArgument_star, encodeArgument_concrete, flag] at he
  | concrete t =>
    cases b with
    | star => simp [argumentFormat, encodeArgument_star, encodeArgument_concrete, flag] at he
    | concrete u =>
      simp only [argumentFormat, encodeArgument_concrete, List.append_assoc] at he
      obtain ⟨rfl, hr⟩ := h (ha t rfl) (hb u rfl) (flag_append_inj he).2
      exact ⟨rfl, hr⟩

/-- Bytes write at most one tree, the empty applications in it included. -/
theorem delimited_format (budget : Nat) : (format budget).Delimited := by
  induction budget with
  | zero => exact fun t _ _ _ ht => absurd ht (not_admits_zero t)
  | succ budget ih =>
    intro t u r s ht hu he
    have hp := (admits_succ_iff.1 ht).1
    have hq := (admits_succ_iff.1 hu).1
    change t.encode ++ r = u.encode ++ s at he
    obtain ⟨x, hx⟩ := encode_eq_tag_cons t
    obtain ⟨y, hy⟩ := encode_eq_tag_cons u
    have htag : t.tag = u.tag := by
      rw [hx, hy] at he
      exact (List.cons.inj he).1
    clear hx hy
    -- Trees that are written alike begin with the same tag, so they have the same constructor.
    cases t with
    | builtin k =>
      cases u with
      | builtin l =>
        simp only [encode_builtin, List.cons_append, List.nil_append, List.cons.injEq, true_and] at he
        have hk := congrArg UInt8.toNat he.1
        rw [UInt8.toNat_ofNat_of_lt' (k.ordinal_lt.trans (by decide)),
          UInt8.toNat_ofNat_of_lt' (l.ordinal_lt.trans (by decide))] at hk
        have ho := Kind.ofOrdinal?_ordinal k
        rw [hk, Kind.ofOrdinal?_ordinal l] at ho
        exact ⟨by rw [Option.some.inj ho], he.2⟩
      | _ => simp [tag, builtinTag, arrayTag, structTag, referenceTag, coneTag] at htag
    | array e d =>
      cases u with
      | array f g =>
        simp only [encode_array, List.cons_append, List.append_assoc, List.cons.injEq, true_and] at he
        obtain ⟨rfl, hw⟩ := ih hp.1 hq.1 he
        obtain ⟨rfl, hr⟩ := word_append_inj hw
        exact ⟨rfl, hr⟩
      | _ => simp [tag, builtinTag, arrayTag, structTag, referenceTag, coneTag] at htag
    | struct n fs =>
      cases u with
      | struct m gs =>
        simp only [encode_struct, List.cons_append, List.append_assoc, List.cons.injEq, true_and] at he
        obtain ⟨rfl, hf⟩ := SymbolName.delimited_format hp.1 hq.1 he
        obtain ⟨rfl, hr⟩ := ih.list hp.2 hq.2 hf
        exact ⟨rfl, hr⟩
      | _ => simp [tag, builtinTag, arrayTag, structTag, referenceTag, coneTag] at htag
    | reference n =>
      cases u with
      | reference m =>
        simp only [encode_reference, List.cons_append, List.cons.injEq, true_and] at he
        obtain ⟨rfl, hr⟩ := SymbolName.delimited_format hp hq he
        exact ⟨rfl, hr⟩
      | _ => simp [tag, builtinTag, arrayTag, structTag, referenceTag, coneTag] at htag
    | cone g as =>
      cases u with
      | cone h bs =>
        simp only [encode_cone, List.cons_append, List.append_assoc, List.cons.injEq, true_and] at he
        obtain ⟨rfl, ha⟩ := ih hp.1 hq.1 he
        obtain ⟨rfl, hr⟩ := (delimited_argumentFormat ih).list hp.2 hq.2 ha
        exact ⟨rfl, hr⟩
      | _ => simp [tag, builtinTag, arrayTag, structTag, referenceTag, coneTag] at htag

theorem reads_decoder : decoder.Reads 0 (format maxNesting) := by
  intro r s t hr
  rw [decoder, hr]
  exact reads_decodeWithin (Nat.zero_add maxNesting).le hr

end NativeBridge.Ty
