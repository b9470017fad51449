import NativeBridge.Proofs.Call.Entries

/-! # Reading a buffer

What reading gives is told by the list of entries and the place of the cursor alone. A filled buffer
gives just that for any series of reads and rewinds, and stays filled.
-/
namespace NativeBridge

/-- A look at a buffer. -/
inductive Reading where
  | rewind
  | next (kind : CallKind)
  | array (kind : CallKind)
  | value (index : Nat)

namespace Reading

variable {σ : Type} {es : List Entry} {f g : Frame σ} {r : Reading} {vs : List Value} {c i : Nat}

open BufferM

def run : Reading → BufferM σ (List Value)
  | rewind => do
    BufferM.rewind
    return []
  | next k => do return [← getNext k]
  | array k => getArray k
  | value i => do return (← getValue i).toList

def runAll : List Reading → BufferM σ (List (List Value))
  | [] => return []
  | r :: rs => do
    let vs ← r.run
    return vs :: (← runAll rs)

/-- What the entries give with the cursor before the `c`-th of them, and where it stands then. The
cursor passes an entry that is read as one value or an array of its own kind; a look at any entry
finds a value where there is just one. -/
inductive Gives (es : List Entry) (c : Nat) : Reading → List Value → Nat → Prop
  | rewind : Gives es c .rewind [] 0
  | next {e : Entry} {v : Value} (entry : es[c]? = some e) (single : e.value? = some v) :
      Gives es c (.next e.kind) [v] (c + 1)
  | array {e : Entry} (entry : es[c]? = some e) : Gives es c (.array e.kind) e.values (c + 1)
  | value (i : Nat) : Gives es c (.value i) (es[i]?.bind Entry.value?).toList c

inductive GivesAll (es : List Entry) : Nat → List Reading → List (List Value) → Nat → Prop
  | nil {c : Nat} : GivesAll es c [] [] c
  | cons {c d d' : Nat} {r : Reading} {rs : List Reading} {vs : List Value}
      {vss : List (List Value)} (first : Gives es c r vs d) (later : GivesAll es d rs vss d') :
      GivesAll es c (r :: rs) (vs :: vss) d'

/-- Two frames that differ in the place of the cursor only. -/
def Alike (f g : Frame σ) : Prop :=
  ∃ i o, g = { f with buffer := { f.buffer with readIndex := i, readOffset := o } }

theorem Alike.refl (f : Frame σ) : Alike f f := ⟨_, _, rfl⟩

theorem Alike.trans {h : Frame σ} (hf : Alike f g) (hg : Alike g h) : Alike f h := by
  obtain ⟨_, _, rfl⟩ := hf
  obtain ⟨i, o, rfl⟩ := hg
  exact ⟨i, o, rfl⟩

theorem alike_rewound (f : Frame σ) : Alike f { f with buffer := f.buffer.rewound } := ⟨_, _, rfl⟩

theorem alike_advanced (f : Frame σ) (t : Tag) :
    Alike f { f with buffer := f.buffer.advanced t } := ⟨_, _, rfl⟩

/-- The frame that reading leaves, whether it succeeds or not. -/
def after (r : Reading) (f : Frame σ) : Frame σ :=
  match r.run f with
  | .ok _ g => g
  | .error _ g => g

/-- Reading of any kind moves the cursor alone, and between two entries. -/
theorem filled_after (h : Filled f.arena.memory f.buffer es) (r : Reading) :
    Alike f (r.after f) ∧ Filled f.arena.memory (r.after f).buffer es := by
  unfold after
  cases r with
  | rewind => exact ⟨alike_rewound f, h.rewound⟩
  | next k =>
    cases hr : (Reading.next k).run f with
    | ok vs g =>
      simp only [run, Run.bind_eq_ok_iff, Run.pure_eq_ok_iff, getNext_eq_ok_iff] at hr
      obtain ⟨_, _, ⟨t, ht, _, _, _, rfl⟩, _, rfl⟩ := hr
      exact ⟨alike_advanced f t, h.advanced ht⟩
    | error c g =>
      obtain rfl | ⟨t, ht, rfl⟩ := getNext_eq_error (Run.bind_pure_eq_error_iff.1 hr)
      · exact ⟨.refl _, h⟩
      · exact ⟨alike_advanced f t, h.advanced ht⟩
  | array k =>
    cases hr : (Reading.array k).run f with
    | ok vs g =>
      obtain ⟨t, ht, _, _, rfl⟩ := getArray_eq_ok_iff.1 hr
      exact ⟨alike_advanced f t, h.advanced ht⟩
    | error c g =>
      rw [eq_of_getArray_eq_error hr]
      exact ⟨.refl f, h⟩
  | value i => exact ⟨.refl f, h⟩

theorem run_of_gives (h : Filled f.arena.memory f.buffer es)
    (hg : Gives es f.buffer.readIndex r vs c) :
    ∃ g, r.run f = .ok vs g ∧ g.buffer.readIndex = c := by
  cases hg with
  | rewind => exact ⟨_, rfl, rfl⟩
  | @next e v he hv =>
    have ht : f.buffer.tags[f.buffer.readIndex]? = some e.tag := h.tag_of_entry he
    have hc : e.tag.count = 1 := Entry.count_tag hv
    have hval := (h.readValue_eq he hv).symm
    rw [← h.offset_eq] at hval
    have hr : getNext e.kind f = .ok v { f with buffer := f.buffer.advanced e.tag } :=
      getNext_eq_ok_iff.2 ⟨_, ht, rfl, hc, hval, rfl⟩
    refine ⟨{ f with buffer := f.buffer.advanced e.tag }, ?_, rfl⟩
    rw [run, Run.bind_of_ok hr]
    rfl
  | @array e he =>
    have ht : f.buffer.tags[f.buffer.readIndex]? = some e.tag := h.tag_of_entry he
    have hval := (h.readValues_eq he).symm
    rw [← h.offset_eq] at hval
    have hr := getArray_eq_ok_iff.2 ⟨_, ht, rfl, hval, rfl⟩
    exact ⟨_, hr, rfl⟩
  | value i =>
    refine ⟨f, ?_, rfl⟩
    rw [run, Run.bind_of_ok (getValue_eq f i), h.value?_eq]
    rfl

/-- A series of reads and rewinds gives back what was put. -/
theorem runAll_of_givesAll {rs : List Reading} {vss : List (List Value)}
    (h : Filled f.arena.memory f.buffer es) (hg : GivesAll es f.buffer.readIndex rs vss c) :
    ∃ g, runAll rs f = .ok vss g ∧ Alike f g ∧ g.buffer.readIndex = c := by
  induction rs generalizing f vss with
  | nil =>
    cases hg
    exact ⟨f, rfl, .refl f, rfl⟩
  | cons r rs ih =>
    cases hg with
    | cons first later =>
      obtain ⟨g, hr, hi⟩ := run_of_gives h first
      obtain ⟨ha, hf⟩ := filled_after h r
      have hag : r.after f = g := by rw [after, hr]
      rw [hag] at ha hf
      have hm : g.arena = f.arena := by
        obtain ⟨_, _, rfl⟩ := ha
        rfl
      rw [← hm] at hf
      rw [← hi] at later
      obtain ⟨g', hrs, ha', hi'⟩ := ih hf later
      refine ⟨g', ?_, ha.trans ha', hi'⟩
      rw [runAll, Run.bind_of_ok hr, Run.bind_of_ok hrs]
      rfl

end Reading

end NativeBridge
