import NativeBridge.Proofs.Mangling.Resolver
import NativeBridge.Symbol.Table

/-! # Linked tables

A linked table answers from its first part wherever that part has an answer, and from its second
part otherwise. So whatever was demangled with the structs of the first part comes out the same, and
so does every error but that of a missing struct.
-/
namespace NativeBridge

/-- What comes out of a text with the first resolver comes out with the second one as well, unless
a struct was missing. -/
def Resolver.Settled (r q : Resolver) (input : String) : Prop :=
  (∀ ts, demangleList input r = .ok ts → demangleList input q = .ok ts) ∧
    ∀ e, demangleList input r = .error e → ¬e.IsUnresolved → demangleList input q = .error e

theorem Resolver.Within.settled {r q : Resolver} (h : r.Within q) (input : String) :
    r.Settled q input := by
  rcases demangleList_within h input with ⟨e, he, hu⟩ | heq
  · rw [Resolver.Settled, he]
    constructor
    · intro ts ht
      cases ht
    · intro f hf hn
      cases hf
      exact absurd hu hn
  · rw [Resolver.Settled, heq]
    exact ⟨fun _ ht => ht, fun _ hf _ => hf⟩

namespace SymbolTable

theorem get?_append (a b : SymbolTable) (i : Nat) :
    (a ++ b).get? i = if i < a.size then a.get? i else b.get? (i - a.size) :=
  List.getElem?_append

/-- The fields of a struct are the same in a linked table. -/
theorem within_append (a b : SymbolTable) :
    Resolver.Within a.structFields (a ++ b).structFields := by
  intro name fields h
  rw [structFields_append, h, Option.some_or]

/-- Every look-up in a linked table, however it was linked, tries the first part and then the second.
Demangling with its structs settles what was settled with those of the first part, as with any
two resolvers of which the second knows all that the first does. -/
theorem append_answers (a b : SymbolTable) :
    (a.extend b = a ++ b ∧ linked a b = a ++ b) ∧
    (∀ id, (a ++ b).findById id = (a.findById id).or (b.findById id)) ∧
    (∀ full, (a ++ b).findByName full = (a.findByName full).or (b.findByName full)) ∧
    (∀ key, (a ++ b).findByKey key = (a.findByKey key).or (b.findByKey key)) ∧
    (∀ name, (a ++ b).structFields name = (a.structFields name).or (b.structFields name)) ∧
    (∀ i, (a ++ b).get? i = if i < a.size then a.get? i else b.get? (i - a.size)) ∧
    (∀ input, Resolver.Settled a.structFields (a ++ b).structFields input) ∧
    ∀ r q : Resolver, r.Within q → ∀ input, r.Settled q input :=
  ⟨⟨extend_eq_append a b, linked_eq_append a b⟩, findById_append a b, findByName_append a b,
    findByKey_append a b, structFields_append a b, get?_append a b,
    (within_append a b).settled, fun _ _ h => h.settled⟩

/-- Both parts know the struct `p.S`; the second one also knows `p.T`, which its text needs. -/
theorem append_answers_shadowed :
    let info (name : SymbolName) : SymbolInfo := ⟨name, 1, 1, ""⟩
    let layout (id : UInt32) (name : SymbolName) (fields : List Ty) : Symbol :=
      ⟨⟨id⟩, info name, none, [], .struct fields⟩
    let a : SymbolTable := ⟨[layout 1 ⟨"p.S", "S"⟩ [.builtin .int]]⟩
    let b : SymbolTable := ⟨[layout 2 ⟨"p.S", "S"⟩ [.builtin .bool], layout 3 ⟨"p.T", "T"⟩ []]⟩
    demangleList "S$p_S$S" (a ++ b).structFields =
        .ok [.struct ⟨"p.S", "S"⟩ [.builtin .int]] ∧
      demangleList "S$p_S$S?" (a ++ b).structFields = .error (.unexpectedChar 7 '?') ∧
      demangleList "S$p_T$S" a.structFields = .error (.unresolvedStruct "p.T") ∧
      demangleList "S$p_T$S" (a ++ b).structFields = .ok [.struct ⟨"p.T", "T"⟩ []] := by
  intro info layout a b
  obtain ⟨_, _, _, _, _, _, hs, _⟩ := append_answers a b
  have hknown : demangleList "S$p_S$S" a.structFields =
    .ok [.struct ⟨"p.S", "S"⟩ [.builtin .int]] := by decide +kernel
  have hwrong : demangleList "S$p_S$S?" a.structFields = .error (.unexpectedChar 7 '?') := by
    decide +kernel
  have hother : ¬(DemangleError.unexpectedChar 7 '?').IsUnresolved := by
    rintro ⟨_, h⟩
    cases h
  exact ⟨(hs _).1 _ hknown, (hs _).2 _ hwrong hother, by decide +kernel, by decide +kernel⟩

end SymbolTable

end NativeBridge
