import SlickPerfmon.Session.BlockLayout

/-!
# The handshake on the bytes

The parties of a segment store and load bytes, at addresses they work out from what they have read in it. What they do
is a run on the words of the layout; the samples of the rings, which have no words there, keep the last that was stamped
into them.
-/

namespace SlickPerfmon

open Library

/-! ## The words in the bytes -/

namespace BlockStore

def field : BlockStore → BlockField
  | .magic _ => .magic
  | .layoutVersion _ => .layoutVersion
  | .maxNames _ => .maxNames
  | .nameCapacity _ => .nameCapacity
  | .ringCount _ => .ringCount
  | .ringCapacity _ => .ringCapacity
  | .tscHzMilli _ => .tscHzMilli
  | .invariantTsc _ => .invariantTsc
  | .initState _ => .initState
  | .nameGeneration _ => .nameGeneration
  | .key i _ => .key i
  | .nameByte i j _ => .nameByte i j
  | .tableCount _ => .tableCount
  | .tableCapacity _ => .tableCapacity
  | .nextTag _ => .nextTag
  | .head i _ => .head i
  | .owner i _ => .owner i

def value : BlockStore → Nat
  | .magic v | .layoutVersion v | .maxNames v | .nameCapacity v | .ringCount v | .ringCapacity v | .invariantTsc v
  | .initState v | .tableCount v | .tableCapacity v | .nextTag v => v.toNat
  | .tscHzMilli v | .nameGeneration v | .key _ v | .head _ v | .owner _ v => v.toNat
  | .nameByte _ _ v => v.toNat

end BlockStore

namespace BlockField

def IsSample : BlockField → Prop
  | .timestamp .. | .point .. | .event .. => True
  | _ => False

instance : (f : BlockField) → Decidable f.IsSample
  | .timestamp .. | .point .. | .event .. => isTrue trivial
  | .magic | .layoutVersion | .maxNames | .nameCapacity | .ringCount | .ringCapacity | .tscHzMilli | .invariantTsc
  | .initState | .nameGeneration | .key _ | .nameByte .. | .tableCount | .tableCapacity | .nextTag | .head _
  | .owner _ => isFalse id

end BlockField

namespace BlockGeometry

/-- A field that the geometry has, and otherwise 0. -/
def word (g : BlockGeometry) (mem : ByteMemory) (f : BlockField) : Nat := if f.Within g then f.read g mem else 0

/-- The words of a block of this geometry. -/
def words (g : BlockGeometry) (mem : ByteMemory) : BlockWords where
  header :=
    { magic := .ofNat (g.word mem .magic)
      layoutVersion := .ofNat (g.word mem .layoutVersion)
      nameCapacity := .ofNat (g.word mem .nameCapacity)
      maxNames := .ofNat (g.word mem .maxNames)
      ringCount := .ofNat (g.word mem .ringCount)
      ringCapacity := .ofNat (g.word mem .ringCapacity) }
  tscHzMilli := .ofNat (g.word mem .tscHzMilli)
  invariantTsc := .ofNat (g.word mem .invariantTsc)
  initState := .ofNat (g.word mem .initState)
  nameGeneration := .ofNat (g.word mem .nameGeneration)
  keys i := .ofNat (g.word mem (.key i))
  names i j := .ofNat (g.word mem (.nameByte i j))
  tableCount := .ofNat (g.word mem .tableCount)
  tableCapacity := .ofNat (g.word mem .tableCapacity)
  nextTag := .ofNat (g.word mem .nextTag)
  heads i := .ofNat (g.word mem (.head i))
  owners i := .ofNat (g.word mem (.owner i))

variable {g : BlockGeometry}

theorem word_write (h : g.Accepted) {f : BlockField} (hf : f.Within g) (mem : ByteMemory) (v : Nat) (f' : BlockField) :
    g.word (f.write g mem v) f' = if f' = f then v % 256 ^ f.size else g.word mem f' := by
  by_cases hf' : f'.Within g
  · have hread : ∀ mem, f'.read g mem = g.fields.read mem ⟨f', hf'⟩ := fun mem => by
      rw [BlockField.read, BlockField.offset_toNat h hf']
      rfl
    have hwrite : f.write g mem v = g.fields.write mem ⟨f, hf⟩ v := by
      rw [BlockField.write, BlockField.offset_toNat h hf]
      rfl
    rw [word, word, if_pos hf', if_pos hf', hread, hread, hwrite]
    by_cases hsame : f' = f
    · subst hsame
      rw [if_pos rfl]
      exact g.fields.read_write_self mem _ v
    · rw [if_neg hsame]
      exact g.fields.read_write_of_ne mem v fun he => hsame (Subtype.ext_iff.mp he)
  · have hne : f' ≠ f := fun he => hf' (he ▸ hf)
    rw [word, word, if_neg hf', if_neg hf', if_neg hne]

theorem read_write (h : g.Accepted) {f f' : BlockField} (hf : f.Within g) (hf' : f'.Within g) (mem : ByteMemory)
    (v : Nat) : f'.read g (f.write g mem v) = if f' = f then v % 256 ^ f.size else f'.read g mem := by
  have hword := word_write h hf mem v f'
  rwa [word, word, if_pos hf', if_pos hf'] at hword

theorem ofNat_low8 (v : UInt8) : UInt8.ofNat (v.toNat % 256 ^ 1) = v := by
  have hbytes : 256 ^ 1 = 2 ^ 8 := rfl
  rw [hbytes, Nat.mod_eq_of_lt v.toNat_lt, UInt8.ofNat_toNat]

theorem ofNat_low32 (v : UInt32) : UInt32.ofNat (v.toNat % 256 ^ 4) = v := by
  have hbytes : 256 ^ 4 = 2 ^ 32 := rfl
  rw [hbytes, Nat.mod_eq_of_lt v.toNat_lt, UInt32.ofNat_toNat]

theorem ofNat_low64 (v : UInt64) : UInt64.ofNat (v.toNat % 256 ^ 8) = v := by
  have hbytes : 256 ^ 8 = 2 ^ 64 := rfl
  rw [hbytes, Nat.mod_eq_of_lt v.toNat_lt, UInt64.ofNat_toNat]

/-- A store to the bytes of its field is the store to the word. -/
theorem words_write (h : g.Accepted) (store : BlockStore) (hf : store.field.Within g) (mem : ByteMemory) :
    g.words (store.field.write g mem store.value) = store.apply (g.words mem) := by
  unfold words
  simp only [word_write h hf]
  cases store with
  | key i v | head i v | owner i v =>
      simp only [BlockStore.field, BlockStore.value, BlockStore.apply, BlockField.size, reduceCtorEq, if_false,
        BlockField.key.injEq, BlockField.head.injEq, BlockField.owner.injEq, BlockWords.mk.injEq, true_and, and_true]
      funext i'
      by_cases hi : i' = i
      · subst hi
        rw [if_pos rfl, Function.update_self, ofNat_low64]
      · rw [if_neg hi, Function.update_of_ne hi]
  | nameByte i j v =>
      simp only [BlockStore.field, BlockStore.value, BlockStore.apply, BlockField.size, reduceCtorEq, if_false,
        BlockField.nameByte.injEq, BlockWords.mk.injEq, true_and, and_true]
      funext i' j'
      by_cases hi : i' = i
      · subst hi
        rw [Function.update_self]
        by_cases hj : j' = j
        · subst hj
          rw [if_pos ⟨rfl, rfl⟩, Function.update_self, ofNat_low8]
        · rw [if_neg fun he => hj he.2, Function.update_of_ne hj]
      · rw [if_neg fun he => hi he.1, Function.update_of_ne hi]
  | tscHzMilli v | nameGeneration v =>
      simp only [BlockStore.field, BlockStore.value, BlockStore.apply, BlockField.size, reduceCtorEq, if_false, if_true,
        ofNat_low64]
  | _ =>
      simp only [BlockStore.field, BlockStore.value, BlockStore.apply, BlockField.size, reduceCtorEq, if_false, if_true,
        ofNat_low32]

/-- A store into a sample is in no word. -/
theorem words_stamp (h : g.Accepted) {f : BlockField} (hsample : f.IsSample) (hf : f.Within g) (mem : ByteMemory)
    (v : Nat) : g.words (f.write g mem v) = g.words mem := by
  unfold words
  simp only [word_write h hf]
  cases f with
  | timestamp | point | event => simp only [reduceCtorEq, if_false]
  | _ => cases hsample

end BlockGeometry

/-! ## The parties on the bytes -/

def ControlHeader.ofBytes (mem : ByteMemory) : ControlHeader :=
  let read (f : BlockField) : UInt32 := .ofNat (f.read ⟨0, 0, 0⟩ mem)
  { magic := read .magic
    layoutVersion := read .layoutVersion
    nameCapacity := read .nameCapacity
    maxNames := read .maxNames
    ringCount := read .ringCount
    ringCapacity := read .ringCapacity }

/-- The names and, from `rings_offset(max_names)`, the ring table, by the header. -/
def BlockGeometry.ofHeader (mem : ByteMemory) : BlockGeometry := ⟨(ControlHeader.ofBytes mem).maxNames, 0, 0⟩

/-- `ring_table::adopt` of `rings()`; a block without rings has none. -/
def BlockGeometry.adopt (mem : ByteMemory) : Option BlockGeometry :=
  if (ControlHeader.ofBytes mem).ringCount = 0 then none
  else some
    ⟨(ofHeader mem).maxNames, .ofNat (BlockField.tableCount.read (ofHeader mem) mem),
      .ofNat (BlockField.tableCapacity.read (ofHeader mem) mem)⟩

/-- `segment` holds bytes, and `adopted` is the ring table a party has taken up. `stamps` only records: the stores into
samples. -/
structure BytesState (Party : Type) where
  segment : Option ByteMemory
  parties : Party → AttachPc
  adopted : Party → Option BlockGeometry
  creator : Option Party
  uses : List BlockStore
  stamps : List (BlockField × Nat)

inductive BytesAction (Party : Type)
  | go (p : Party)
  | adopt (p : Party)
  | use (p : Party) (store : BlockStore)
  | stamp (p : Party) (f : BlockField) (v : Nat)

section Model

variable {Party : Type} [DecidableEq Party]

namespace BytesState

def goto (s : BytesState Party) (p : Party) (pc : AttachPc) : BytesState Party :=
  { s with parties := Function.update s.parties p pc }

/-- What a party that has the block goes by. -/
def goesBy (s : BytesState Party) (p : Party) (mem : ByteMemory) : BlockGeometry :=
  (s.adopted p).getD (.ofHeader mem)

def go (mem₀ : ByteMemory) (creates : Bool) (g : BlockGeometry) (s : BytesState Party) (p : Party) :
    Option (BytesState Party) :=
  match s.parties p, s.segment with
  | .idle, some _ => some (s.goto p (.await 0))
  | .idle, none =>
      if creates then
        some { s with
          segment := some mem₀
          creator := some p
          parties := Function.update s.parties p (.initialise g.initialise) }
      else some (s.goto p .absent)
  | .initialise (store :: todo), some mem =>
      some { s.goto p (if todo = [] then .attached else .initialise todo) with
        segment := some (store.field.write (.ofHeader mem) mem store.value) }
  | .await n, some mem =>
      if UInt32.ofNat (BlockField.initState.read (.ofHeader mem) mem) = kReady then some (s.goto p (.check .magic))
      else some (s.goto p (if n + 1 < kAwaitReadyLoads then .await (n + 1) else .timedOut))
  | .check c, some mem => some (s.goto p (c.step (.ofBytes mem) g))
  | _, _ => none

/-- Once attached, a party configured with rings takes up the table. -/
def adopt (g : BlockGeometry) (s : BytesState Party) (p : Party) : Option (BytesState Party) :=
  match s.parties p, s.segment with
  | .attached, some mem =>
      if g.rings > 0 then
        (BlockGeometry.adopt mem).map fun table => { s with adopted := Function.update s.adopted p (some table) }
      else none
  | _, _ => none

def use (s : BytesState Party) (p : Party) (store : BlockStore) : Option (BytesState Party) :=
  match s.parties p, s.segment with
  | .attached, some mem =>
      if store.isUse ∧ store.field.Within (s.goesBy p mem) then
        some { s with
          segment := some (store.field.write (s.goesBy p mem) mem store.value)
          uses := s.uses ++ [store] }
      else none
  | _, _ => none

def stamp (s : BytesState Party) (p : Party) (f : BlockField) (v : Nat) : Option (BytesState Party) :=
  match s.parties p, s.segment with
  | .attached, some mem =>
      if f.IsSample ∧ f.Within (s.goesBy p mem) then
        some { s with
          segment := some (f.write (s.goesBy p mem) mem v)
          stamps := s.stamps ++ [(f, v)] }
      else none
  | _, _ => none

/-- The words that a block of geometry `g` holds in its bytes. -/
def inWords (g : BlockGeometry) (s : BytesState Party) : AttachState Party :=
  ⟨s.segment.map g.words, s.parties, s.creator, s.uses⟩

omit [DecidableEq Party] in
theorem inWords_segment {s : BytesState Party} {mem : ByteMemory} (g : BlockGeometry) (h : s.segment = some mem) :
    (s.inWords g).segment = some (g.words mem) := by
  rw [inWords, h]
  rfl

theorem inWords_goto (g : BlockGeometry) (s : BytesState Party) (p : Party) (pc : AttachPc) :
    (s.goto p pc).inWords g = (s.inWords g).goto p pc := rfl

end BytesState

/-- Every interleaving of parties on the bytes of one segment, `mem₀` when it is made. -/
def bytesSystem (mem₀ : ByteMemory) (creates : Party → Bool) (geometry : Party → BlockGeometry) :
    System (BytesState Party) (BytesAction Party) where
  Init s := s.segment = none ∧ s.creator = none ∧ s.uses = [] ∧ s.stamps = [] ∧ (∀ p, s.parties p = .idle) ∧
    ∀ p, s.adopted p = none
  step a s :=
    match a with
    | .go p => s.go mem₀ (creates p) (geometry p) p
    | .adopt p => s.adopt (geometry p) p
    | .use p store => s.use p store
    | .stamp p f v => s.stamp p f v

end Model

/-! ## Where the stores go -/

namespace BlockField

/-- A field that lies before the ring table. -/
def IsPlain : BlockField → Prop
  | .tableCount | .tableCapacity | .nextTag | .head _ | .owner _ | .timestamp .. | .point .. | .event .. => False
  | _ => True

theorem offset_of_isPlain {f : BlockField} (hf : f.IsPlain) (g g' : BlockGeometry) : f.offset g = f.offset g' := by
  cases f with
  | tableCount | tableCapacity | nextTag | head | owner | timestamp | point | event => cases hf
  | _ => rfl

/-- The names alone say where all but the samples lie. -/
theorem offset_congr {f : BlockField} (hf : ¬ f.IsSample) {g g' : BlockGeometry} (h : g.maxNames = g'.maxNames) :
    f.offset g = f.offset g' := by
  have hrings : g.ringsOffset = g'.ringsOffset := by rw [BlockGeometry.ringsOffset, BlockGeometry.ringsOffset, h]
  cases f with
  | timestamp | point | event => exact absurd trivial hf
  | tableCount | tableCapacity | nextTag => simp only [offset, hrings]
  | head | owner => simp only [offset, BlockGeometry.slot, hrings]
  | _ => rfl

theorem write_congr {f : BlockField} {g g' : BlockGeometry} (h : f.offset g = f.offset g') (mem : ByteMemory) (v : Nat) :
    f.write g mem v = f.write g' mem v := by
  rw [write, write, h]

theorem read_congr {f : BlockField} {g g' : BlockGeometry} (h : f.offset g = f.offset g') (mem : ByteMemory) :
    f.read g mem = f.read g' mem := by
  rw [read, read, h]

end BlockField

theorem BlockStore.field_not_isSample (store : BlockStore) : ¬ store.field.IsSample := by
  cases store <;> exact id

namespace BlockGeometry

open BlockStore

theorem words_header (g : BlockGeometry) (mem : ByteMemory) : (g.words mem).header = .ofBytes mem := rfl

/-- `initialise` stores into its own block. -/
theorem within_initialise (g : BlockGeometry) {store : BlockStore} (h : store ∈ g.initialise) :
    store.field.Within g := by
  simp only [initialise, layout, createTable, List.mem_append, List.mem_flatMap, List.mem_range] at h
  rcases h with ((h | ⟨i, hi, h⟩) | h) | h
  · simp only [List.mem_cons, List.not_mem_nil, or_false] at h
    rcases h with rfl | rfl | rfl | rfl | rfl | rfl | rfl | rfl | rfl | rfl <;> trivial
  · simp only [List.mem_cons, List.not_mem_nil, or_false] at h
    rcases h with rfl | rfl
    · exact hi
    · exact ⟨hi, by decide⟩
  · split at h
    · rename_i hpos
      have hpos : 0 < g.rings.toNat := UInt32.lt_iff_toNat_lt.mp hpos
      rcases List.mem_append.mp h with h | h
      · simp only [List.mem_cons, List.not_mem_nil, or_false] at h
        rcases h with rfl | rfl | rfl <;> exact hpos
      · obtain ⟨i, hi, h⟩ := List.mem_flatMap.mp h
        simp only [List.mem_cons, List.not_mem_nil, or_false] at h
        rcases h with rfl | rfl <;> exact List.mem_range.mp hi
    · cases h
  · rw [List.mem_singleton.mp h]
    trivial

theorem apply_maxNames {store : BlockStore} (h : store.field ≠ .maxNames) (b : BlockWords) :
    (store.apply b).header.maxNames = b.header.maxNames := by
  cases store with
  | maxNames => exact absurd rfl h
  | _ => rfl

theorem applyAll_maxNames {stores : List BlockStore} (h : ∀ store ∈ stores, store.field ≠ .maxNames) (b : BlockWords) :
    (applyAll b stores).header.maxNames = b.header.maxNames := by
  induction stores generalizing b with
  | nil => rfl
  | cons store stores ih =>
      have hrest := ih (fun st hst => h st (List.mem_cons_of_mem _ hst)) (store.apply b)
      exact hrest.trans (apply_maxNames (h store List.mem_cons_self) b)

/-- Past the header `initialise` leaves `max_names` alone. -/
theorem initialise_split (g : BlockGeometry) : ∃ header rest, g.initialise = header ++ rest ∧
    (∀ store ∈ header, store.field.IsPlain) ∧ (∀ b, (applyAll b header).header.maxNames = g.maxNames) ∧
    ∀ store ∈ rest, store.field ≠ .maxNames := by
  refine ⟨[.initState kInitialising, .magic ControlHeader.kMagic, .layoutVersion ControlHeader.kLayoutVersion,
    .maxNames g.maxNames, .nameCapacity ControlHeader.kNameCapacity, .ringCount g.rings, .ringCapacity g.ringCapacity,
    .tscHzMilli 0, .invariantTsc 1, .nameGeneration 0],
    (List.range g.maxNames.toNat).flatMap (fun i => [.key i 0, .nameByte i 0 0]) ++
      (if g.rings > 0 then g.createTable else []) ++ [.initState kReady], rfl, ?_, fun _ => rfl, ?_⟩
  · intro store h
    simp only [List.mem_cons, List.not_mem_nil, or_false] at h
    rcases h with rfl | rfl | rfl | rfl | rfl | rfl | rfl | rfl | rfl | rfl <;> trivial
  · intro store h
    simp only [createTable, List.mem_append, List.mem_flatMap, List.mem_cons, List.not_mem_nil, or_false] at h
    rcases h with (⟨i, -, rfl | rfl⟩ | h) | rfl
    · simp [field]
    · simp [field]
    · split at h
      · simp only [List.mem_append, List.mem_flatMap, List.mem_cons, List.not_mem_nil, or_false] at h
        rcases h with (rfl | rfl | rfl) | ⟨i, -, rfl | rfl⟩ <;> simp [field]
      · cases h
    · simp [field]

/-- The table is laid out where a header that is there already puts it. -/
theorem maxNames_before (g : BlockGeometry) (b : BlockWords) {front todo : List BlockStore} {store : BlockStore}
    (hsplit : g.initialise = front ++ store :: todo) (hstore : ¬ store.field.IsPlain) :
    (applyAll b front).header.maxNames = g.maxNames := by
  obtain ⟨header, rest, hinit, hplain, hset, hkeep⟩ := g.initialise_split
  rw [hinit] at hsplit
  rcases List.append_eq_append_iff.mp hsplit with ⟨more, rfl, rfl⟩ | ⟨left, rfl, hleft⟩
  · rw [applyAll_append, applyAll_maxNames fun st hst => hkeep st (List.mem_append_left _ hst)]
    exact hset b
  · cases left with
    | nil => simpa using hset b
    | cons st left =>
        rw [List.cons_append, List.cons.injEq] at hleft
        exact absurd (hplain store (by simp [hleft.1])) hstore

end BlockGeometry

/-! ## The run on the words -/

/-- What the stamps leave in a sample's field that held `v`. -/
def BlockField.stamped (f : BlockField) (stamps : List (BlockField × Nat)) (v : Nat) : Nat :=
  stamps.foldl (fun held st => if st.1 = f then st.2 % 256 ^ f.size else held) v

theorem BlockField.stamped_append (stamps : List (BlockField × Nat)) (f : BlockField) (v w : Nat) (f' : BlockField) :
    f'.stamped (stamps ++ [(f, v)]) w = if f' = f then v % 256 ^ f.size else f'.stamped stamps w := by
  rw [stamped, List.foldl_append, List.foldl_cons, List.foldl_nil]
  by_cases hsame : f' = f
  · rw [if_pos hsame.symm, if_pos hsame, hsame]
  · rw [if_neg fun he => hsame he.symm, if_neg hsame]
    rfl

section Refinement

variable {Party : Type} [DecidableEq Party] {mem₀ : ByteMemory} {creates : Party → Bool}
  {geometry : Party → BlockGeometry}

/-- The bytes of a segment that `c` makes, or is still to make. -/
structure BytesInv (mem₀ : ByteMemory) (creates : Party → Bool) (geometry : Party → BlockGeometry) (c : Party)
    (s : BytesState Party) : Prop where
  reach : (attachSystem ((geometry c).words mem₀) creates geometry).Reachable (s.inWords (geometry c))
  adopted : ∀ p table, s.adopted p = some table → s.parties p = .attached ∧ table = geometry c
  unmade : s.segment = none → s.stamps = []
  samples : ∀ mem, s.segment = some mem → ∀ f : BlockField, f.IsSample → f.Within (geometry c) →
    f.read (geometry c) mem = f.stamped s.stamps (f.read (geometry c) mem₀)
  outside : ∀ mem, s.segment = some mem → ∀ x, (geometry c).bytesFor.toNat ≤ x → mem x = mem₀ x

namespace BytesInv

variable {c p : Party} {s s' : BytesState Party} {mem : ByteMemory}

/-- A party that is not attached has taken up no table. -/
theorem adopted_goto (h : BytesInv mem₀ creates geometry c s) {pc : AttachPc} (hp : s.parties p ≠ .attached) {q : Party}
    {table : BlockGeometry} (hq : s.adopted q = some table) :
    Function.update s.parties p pc q = .attached ∧ table = geometry c := by
  obtain ⟨hatt, htable⟩ := h.adopted q table hq
  have hne : q ≠ p := fun he => hp (he ▸ hatt)
  exact ⟨(Function.update_of_ne hne _ _).trans hatt, htable⟩

/-- A step that moves a party on and leaves the bytes. -/
theorem move (h : BytesInv mem₀ creates geometry c s) {pc : AttachPc} (hp : s.parties p ≠ .attached)
    (hstep : (attachSystem ((geometry c).words mem₀) creates geometry).step (.go p) (s.inWords (geometry c)) =
      some ((s.goto p pc).inWords (geometry c))) : BytesInv mem₀ creates geometry c (s.goto p pc) where
  reach := .step _ h.reach hstep
  adopted _ _ hq := h.adopted_goto hp hq
  unmade := h.unmade
  samples := h.samples
  outside := h.outside

/-- A store inside the block leaves what lies behind it. -/
theorem outside_write (h : BytesInv mem₀ creates geometry c s) (hg : (geometry c).Accepted) (hseg : s.segment = some mem)
    {f : BlockField} (hf : f.Within (geometry c)) (v : Nat) {x : Nat} (hx : (geometry c).bytesFor.toNat ≤ x) :
    f.write (geometry c) mem v x = mem₀ x := by
  have hend := (BlockField.place_spec hg hf).2
  rw [BlockField.write, ByteMemory.store, BlockField.offset_toNat hg hf, if_neg (by omega)]
  exact h.outside mem hseg x hx

theorem made (h : BytesInv mem₀ creates geometry c s) (hfresh : ((geometry c).words mem₀).initState ≠ kReady)
    (hcreator : s.creator = none ∨ s.creator = some c) (hseg : s.segment = some mem) : s.creator = some c := by
  refine hcreator.resolve_left fun hnone => ?_
  rcases attachInv_reachable hfresh h.reach with hunmade | ⟨c', todo, hmaking⟩
  · exact absurd (hunmade.segment.symm.trans (BytesState.inWords_segment _ hseg)) (by simp)
  · exact absurd (hnone.symm.trans hmaking.creator) (by simp)

/-- What a party that has the block finds in it. -/
theorem attached (h : BytesInv mem₀ creates geometry c s) (hfresh : ((geometry c).words mem₀).initState ≠ kReady)
    (hcreator : s.creator = some c) (hseg : s.segment = some mem) (hp : s.parties p = .attached) :
    ControlHeader.ofBytes mem = (geometry c).header ∧ (geometry c).Agrees (geometry p) ∧
      ((geometry c).rings > 0 → BlockGeometry.adopt mem = some (geometry c)) := by
  have hwords := BytesState.inWords_segment (geometry c) hseg
  rcases attachInv_reachable hfresh h.reach with hnone | ⟨c', todo, hmaking⟩
  · exact absurd (hnone.segment.symm.trans hwords) (by simp)
  · obtain rfl : c' = c := Option.some.inj (hmaking.creator.symm.trans hcreator)
    obtain ⟨rfl, hagrees⟩ := hmaking.agrees hp
    have hheader : ControlHeader.ofBytes mem = (geometry c').header := (hmaking.sameLayout hwords).1
    refine ⟨hheader, hagrees, fun hpos => ?_⟩
    obtain ⟨hlaid, hb⟩ := hmaking.laidOut hwords
    have hsame := BlockStore.applyAll_sameLayout
      (BlockStore.applyAll ((geometry c').words mem₀) (geometry c').initialise) hmaking.uses
    rw [← hb] at hsame
    have hcount := hsame.tableCount.trans (hlaid.table hpos).1
    have hcapacity := hsame.tableCapacity.trans (hlaid.table hpos).2.1
    have hwithin : 0 < (geometry c').rings.toNat := UInt32.lt_iff_toNat_lt.mp hpos
    simp only [BlockGeometry.words, BlockGeometry.word, BlockField.Within, hwithin, if_true] at hcount hcapacity
    have hbase : (BlockGeometry.ofHeader mem).maxNames = (geometry c').maxNames := congrArg ControlHeader.maxNames hheader
    have hrings : (ControlHeader.ofBytes mem).ringCount ≠ 0 := by
      rw [hheader]
      exact UInt32.pos_iff_ne_zero.mp hpos
    rw [BlockGeometry.adopt, if_neg hrings,
      BlockField.read_congr (f := .tableCount) (BlockField.offset_congr id hbase),
      BlockField.read_congr (f := .tableCapacity) (BlockField.offset_congr id hbase), hcount, hcapacity, hbase]

/-- A party that has the block finds each field where its creator laid it. -/
theorem goesBy_spec (h : BytesInv mem₀ creates geometry c s) (hheader : ControlHeader.ofBytes mem = (geometry c).header)
    {f : BlockField} (hf : f.Within (s.goesBy p mem)) :
    f.Within (geometry c) ∧ f.offset (s.goesBy p mem) = f.offset (geometry c) := by
  cases htable : s.adopted p with
  | some table =>
      rw [BytesState.goesBy, htable, Option.getD_some, (h.adopted p table htable).2] at hf ⊢
      exact ⟨hf, rfl⟩
  | none =>
      have hnames : (BlockGeometry.ofHeader mem).maxNames = (geometry c).maxNames :=
        congrArg ControlHeader.maxNames hheader
      rw [BytesState.goesBy, htable, Option.getD_none] at hf ⊢
      cases f with
      | key i =>
          have hi : i < (BlockGeometry.ofHeader mem).maxNames.toNat := hf
          rw [hnames] at hi
          exact ⟨hi, rfl⟩
      | nameByte i j =>
          have hi : i < (BlockGeometry.ofHeader mem).maxNames.toNat := hf.1
          rw [hnames] at hi
          exact ⟨⟨hi, hf.2⟩, rfl⟩
      | tableCount | tableCapacity | nextTag | head | owner => exact absurd hf (Nat.not_lt_zero _)
      | timestamp | point | event => exact absurd hf.1 (Nat.not_lt_zero _)
      | _ => exact ⟨trivial, rfl⟩

/-- The creator's next store goes to its own block. -/
theorem store_spec (h : BytesInv mem₀ creates geometry c s) (hfresh : ((geometry c).words mem₀).initState ≠ kReady)
    {store : BlockStore} {todo : List BlockStore} (hcreator : s.creator = none ∨ s.creator = some c)
    (hpc : s.parties p = .initialise (store :: todo)) (hseg : s.segment = some mem) :
    store.field.Within (geometry c) ∧ store.field.offset (.ofHeader mem) = store.field.offset (geometry c) := by
  have hwords := BytesState.inWords_segment (geometry c) hseg
  have hpc' : (s.inWords (geometry c)).parties p = .initialise (store :: todo) := hpc
  rcases attachInv_reachable hfresh h.reach with hnone | ⟨c', todo', hmaking⟩
  · exact absurd (hnone.segment.symm.trans hwords) (by simp)
  · obtain rfl : c' = c := Option.some.inj (hmaking.creator.symm.trans (h.made hfresh hcreator hseg))
    have hp : p = c' := by
      by_contra hne
      have hother := hmaking.others p hne
      rw [hpc'] at hother
      exact hother
    subst hp
    rcases hmaking.stands with ⟨-, hatt⟩ | ⟨-, hinit, huses⟩
    · rw [hpc'] at hatt
      cases hatt
    · rw [hpc'] at hinit
      cases hinit
      obtain ⟨front, hsplit, hmem⟩ := hmaking.segment
      rw [huses, hwords, Option.some.injEq] at hmem
      refine ⟨(geometry p).within_initialise (hsplit ▸ by simp), ?_⟩
      by_cases hplain : store.field.IsPlain
      · exact BlockField.offset_of_isPlain hplain _ _
      · refine BlockField.offset_congr store.field_not_isSample ?_
        have hnames := (geometry p).maxNames_before ((geometry p).words mem₀) hsplit hplain
        exact (congrArg (fun b => b.header.maxNames) hmem).trans hnames

/-- A store to a word of the block. -/
theorem store (h : BytesInv mem₀ creates geometry c s) (hg : (geometry c).Accepted) (hseg : s.segment = some mem)
    {store : BlockStore} (hf : store.field.Within (geometry c)) :
    (∀ f : BlockField, f.IsSample → f.Within (geometry c) →
      f.read (geometry c) (store.field.write (geometry c) mem store.value) =
        f.stamped s.stamps (f.read (geometry c) mem₀)) ∧
    ∀ x, (geometry c).bytesFor.toNat ≤ x → store.field.write (geometry c) mem store.value x = mem₀ x := by
  refine ⟨fun f hsample hwithin => ?_, fun x hx => h.outside_write hg hseg hf _ hx⟩
  have hne : f ≠ store.field := fun he => store.field_not_isSample (he ▸ hsample)
  rw [BlockGeometry.read_write hg hf hwithin, if_neg hne]
  exact h.samples mem hseg f hsample hwithin

/-- The creator makes the segment. -/
theorem create (h : BytesInv mem₀ creates geometry c s) (hpc : s.parties c = .idle) (hseg : s.segment = none)
    (hcreates : creates c = true) : BytesInv mem₀ creates geometry c { s with
      segment := some mem₀
      creator := some c
      parties := Function.update s.parties c (.initialise (geometry c).initialise) } := by
  have hpc' : (s.inWords (geometry c)).parties c = .idle := hpc
  have hsegment : (s.inWords (geometry c)).segment = none := by rw [BytesState.inWords, hseg]; rfl
  refine ⟨.step (.go c) h.reach ?_, fun q table hq => h.adopted_goto (by simp [hpc]) hq, by simp, ?_, ?_⟩
  · simp only [attachSystem, AttachState.go, hpc', hsegment, hcreates]
    rfl
  · rintro mem hmem f - -
    cases hmem
    simp [BlockField.stamped, h.unmade hseg]
  · rintro mem hmem x -
    cases hmem
    rfl

/-- The creator stores into the block it lays out. -/
theorem lay (h : BytesInv mem₀ creates geometry c s) (hg : (geometry c).Accepted)
    (hfresh : ((geometry c).words mem₀).initState ≠ kReady) (hcreator : s.creator = none ∨ s.creator = some c)
    {store : BlockStore} {todo : List BlockStore} (hpc : s.parties p = .initialise (store :: todo))
    (hseg : s.segment = some mem) : BytesInv mem₀ creates geometry c
      { s.goto p (if todo = [] then .attached else .initialise todo) with
        segment := some (store.field.write (.ofHeader mem) mem store.value) } := by
  obtain ⟨hwithin, hoffset⟩ := h.store_spec hfresh hcreator hpc hseg
  have hpc' : (s.inWords (geometry c)).parties p = .initialise (store :: todo) := hpc
  obtain ⟨hsamples, houtside⟩ := h.store hg hseg hwithin
  rw [BlockField.write_congr hoffset]
  refine ⟨.step (.go p) h.reach ?_, fun q table hq => h.adopted_goto (by simp [hpc]) hq, by simp, ?_, ?_⟩
  · simp only [attachSystem, AttachState.go, hpc', BytesState.inWords_segment _ hseg,
      ← BlockGeometry.words_write hg store hwithin]
    rfl
  · rintro mem' hmem f hsample hf
    cases hmem
    exact hsamples f hsample hf
  · rintro mem' hmem x hx
    cases hmem
    exact houtside x hx

theorem go (h : BytesInv mem₀ creates geometry c s) (hg : (geometry c).Accepted)
    (hfresh : ((geometry c).words mem₀).initState ≠ kReady) (hcreator : s.creator = none ∨ s.creator = some c)
    (hcreator' : s'.creator = none ∨ s'.creator = some c) (hs : s.go mem₀ (creates p) (geometry p) p = some s') :
    BytesInv mem₀ creates geometry c s' := by
  unfold BytesState.go at hs
  split at hs
  · rename_i mem hpc hseg
    cases hs
    refine h.move (by simp [hpc]) ?_
    have hpc' : (s.inWords (geometry c)).parties p = .idle := hpc
    simp only [attachSystem, AttachState.go, hpc', BytesState.inWords_segment _ hseg, BytesState.inWords_goto]
  · rename_i hpc hseg
    split at hs
    · rename_i hcreates
      cases hs
      have hp : p = c := by simpa using hcreator'
      subst hp
      exact h.create hpc hseg hcreates
    · rename_i hcreates
      cases hs
      have hpc' : (s.inWords (geometry c)).parties p = .idle := hpc
      have hsegment : (s.inWords (geometry c)).segment = none := by rw [BytesState.inWords, hseg]; rfl
      refine h.move (by simp [hpc]) ?_
      simp only [attachSystem, AttachState.go, hpc', hsegment, hcreates, BytesState.inWords_goto]
      rfl
  · rename_i store todo mem hpc hseg
    cases hs
    exact h.lay hg hfresh hcreator hpc hseg
  · rename_i n mem hpc hseg
    have hpc' : (s.inWords (geometry c)).parties p = .await n := hpc
    have hready : UInt32.ofNat (BlockField.initState.read (.ofHeader mem) mem) = ((geometry c).words mem).initState := rfl
    rw [hready] at hs
    split at hs
    · rename_i his
      cases hs
      refine h.move (by simp [hpc]) ?_
      simp only [attachSystem, AttachState.go, hpc', BytesState.inWords_segment _ hseg, BytesState.inWords_goto, his,
        if_true]
    · rename_i hnot
      cases hs
      refine h.move (by simp [hpc]) ?_
      simp only [attachSystem, AttachState.go, hpc', BytesState.inWords_segment _ hseg, BytesState.inWords_goto, hnot,
        if_false]
  · rename_i check mem hpc hseg
    have hpc' : (s.inWords (geometry c)).parties p = .check check := hpc
    cases hs
    refine h.move (by simp [hpc]) ?_
    simp only [attachSystem, AttachState.go, hpc', BytesState.inWords_segment _ hseg, BytesState.inWords_goto,
      BlockGeometry.words_header]
  · cases hs

theorem adopt (h : BytesInv mem₀ creates geometry c s) (hfresh : ((geometry c).words mem₀).initState ≠ kReady)
    (hcreator : s.creator = none ∨ s.creator = some c) (hs : s.adopt (geometry p) p = some s') :
    BytesInv mem₀ creates geometry c s' := by
  unfold BytesState.adopt at hs
  split at hs
  · rename_i mem hpc hseg
    split at hs
    · rename_i hrings
      obtain ⟨-, hagrees, htable⟩ := h.attached hfresh (h.made hfresh hcreator hseg) hseg hpc
      have hpos : (geometry c).rings > 0 := hagrees.2.1 ▸ hrings
      rw [htable hpos] at hs
      cases hs
      refine ⟨h.reach, fun q table hq => ?_, h.unmade, h.samples, h.outside⟩
      by_cases hqp : q = p
      · subst hqp
        exact ⟨hpc, by simpa using hq.symm⟩
      · exact h.adopted q table ((Function.update_of_ne hqp _ _).symm.trans hq)
    · cases hs
  · cases hs

theorem use (h : BytesInv mem₀ creates geometry c s) (hg : (geometry c).Accepted)
    (hfresh : ((geometry c).words mem₀).initState ≠ kReady) (hcreator : s.creator = none ∨ s.creator = some c)
    {store : BlockStore} (hs : s.use p store = some s') : BytesInv mem₀ creates geometry c s' := by
  unfold BytesState.use at hs
  split at hs
  · rename_i mem hpc hseg
    split at hs
    · rename_i hallowed
      obtain ⟨hheader, -, -⟩ := h.attached hfresh (h.made hfresh hcreator hseg) hseg hpc
      obtain ⟨hwithin, hoffset⟩ := h.goesBy_spec hheader hallowed.2
      obtain ⟨hsamples, houtside⟩ := h.store hg hseg hwithin
      cases hs
      rw [BlockField.write_congr hoffset]
      refine ⟨.step (.use p store) h.reach ?_, h.adopted, by simp, ?_, ?_⟩
      · have hpc' : (s.inWords (geometry c)).parties p = .attached := hpc
        simp only [attachSystem, AttachState.use, hpc', BytesState.inWords_segment _ hseg, hallowed.1, if_true,
          ← BlockGeometry.words_write hg store hwithin]
        rfl
      · rintro mem' hmem f hsample hf
        cases hmem
        exact hsamples f hsample hf
      · rintro mem' hmem x hx
        cases hmem
        exact houtside x hx
    · cases hs
  · cases hs

/-- A stamp is no step of the words. -/
theorem stamp (h : BytesInv mem₀ creates geometry c s) (hg : (geometry c).Accepted)
    (hfresh : ((geometry c).words mem₀).initState ≠ kReady) (hcreator : s.creator = none ∨ s.creator = some c)
    {f : BlockField} {v : Nat} (hs : s.stamp p f v = some s') : BytesInv mem₀ creates geometry c s' := by
  unfold BytesState.stamp at hs
  split at hs
  · rename_i mem hpc hseg
    split at hs
    · rename_i hallowed
      obtain ⟨hheader, -, -⟩ := h.attached hfresh (h.made hfresh hcreator hseg) hseg hpc
      obtain ⟨hwithin, hoffset⟩ := h.goesBy_spec hheader hallowed.2
      cases hs
      rw [BlockField.write_congr hoffset]
      refine ⟨?_, h.adopted, by simp, ?_, ?_⟩
      · have hsame : BytesState.inWords (geometry c)
            { s with segment := some (f.write (geometry c) mem v), stamps := s.stamps ++ [(f, v)] } =
              s.inWords (geometry c) := by
          simp only [BytesState.inWords, hseg, Option.map_some, BlockGeometry.words_stamp hg hallowed.1 hwithin]
        exact hsame ▸ h.reach
      · rintro mem' hmem f' hsample hf'
        cases hmem
        rw [BlockGeometry.read_write hg hwithin hf', BlockField.stamped_append, h.samples mem hseg f' hsample hf']
      · rintro mem' hmem x hx
        cases hmem
        exact h.outside_write hg hseg hwithin v hx
    · cases hs
  · cases hs

theorem step (h : BytesInv mem₀ creates geometry c s) (hg : (geometry c).Accepted)
    (hfresh : ((geometry c).words mem₀).initState ≠ kReady) (hcreator : s.creator = none ∨ s.creator = some c)
    (hcreator' : s'.creator = none ∨ s'.creator = some c) {a : BytesAction Party}
    (hs : (bytesSystem mem₀ creates geometry).step a s = some s') : BytesInv mem₀ creates geometry c s' := by
  cases a with
  | go p => exact h.go hg hfresh hcreator hcreator' hs
  | adopt p => exact h.adopt hfresh hcreator hs
  | use p store => exact h.use hg hfresh hcreator hs
  | stamp p f v => exact h.stamp hg hfresh hcreator hs

/-- A segment is made once. -/
theorem creator_step (h : BytesInv mem₀ creates geometry c s) (hfresh : ((geometry c).words mem₀).initState ≠ kReady)
    (hcreator : s.creator = some c) {a : BytesAction Party}
    (hs : (bytesSystem mem₀ creates geometry).step a s = some s') : s'.creator = some c := by
  have hmade : s.segment ≠ none := by
    intro hseg
    have hwords : (s.inWords (geometry c)).segment = none := by rw [BytesState.inWords, hseg]; rfl
    rcases attachInv_reachable hfresh h.reach with hunmade | ⟨c', todo, hmaking⟩
    · exact absurd (hunmade.creator.symm.trans hcreator) (by simp)
    · obtain ⟨front, -, hmem⟩ := hmaking.segment
      exact absurd (hwords.symm.trans hmem) (by simp)
  rw [← hcreator]
  cases a with
  | go p =>
      simp only [bytesSystem, BytesState.go] at hs
      split at hs
      · cases hs; rfl
      · rename_i hseg
        exact absurd hseg hmade
      · cases hs; rfl
      · split at hs <;> cases hs <;> rfl
      · cases hs; rfl
      · cases hs
  | adopt p =>
      simp only [bytesSystem, BytesState.adopt] at hs
      split at hs
      · split at hs
        · obtain ⟨table, -, rfl⟩ := Option.map_eq_some_iff.mp hs
          rfl
        · cases hs
      · cases hs
  | use p store =>
      simp only [bytesSystem, BytesState.use] at hs
      split at hs
      · split at hs
        · cases hs; rfl
        · cases hs
      · cases hs
  | stamp p f v =>
      simp only [bytesSystem, BytesState.stamp] at hs
      split at hs
      · split at hs
        · cases hs; rfl
        · cases hs
      · cases hs

end BytesInv

theorem bytesInv_reachable (hg : ∀ p, (geometry p).Accepted) (hfresh : UInt32.ofNat (mem₀.load 4 36) ≠ kReady)
    {s : BytesState Party} (hs : (bytesSystem mem₀ creates geometry).Reachable s) (c : Party)
    (hc : s.creator = none ∨ s.creator = some c) : BytesInv mem₀ creates geometry c s := by
  induction hs generalizing c with
  | init h =>
      obtain ⟨hsegment, hcreator, huses, hstamps, hparties, hadopted⟩ := h
      refine ⟨.init ⟨by rw [BytesState.inWords, hsegment]; rfl, hcreator, huses, hparties⟩, fun p table hp => ?_,
        fun _ => hstamps, fun mem hmem => ?_, fun mem hmem => ?_⟩
      · exact absurd ((hadopted p).symm.trans hp) (by simp)
      · exact absurd (hsegment.symm.trans hmem) (by simp)
      · exact absurd (hsegment.symm.trans hmem) (by simp)
  | @step s s' a hs hstep ih =>
      -- a segment that is made already has the creator it ends with
      have hbefore : s.creator = none ∨ s.creator = some c := by
        cases hd : s.creator with
        | none => exact Or.inl rfl
        | some d =>
            have hkept := (ih d (Or.inr hd)).creator_step hfresh hd hstep
            rw [hkept] at hc
            exact hc.imp (fun h => absurd h (by simp)) id
      exact (ih c hbefore).step (hg c) hfresh hbefore hc hstep

end Refinement

/-- What parties do to the bytes of a segment, at addresses they read in it, is a run on the words of its creator's
layout. Each of them finds every field where the creator laid it; no store of one leaves the block or touches a sample,
which holds what was last stamped into it. -/
theorem block_bytes_refine {Party : Type} [DecidableEq Party] (mem₀ : ByteMemory) (creates : Party → Bool)
    (geometry : Party → BlockGeometry) (hg : ∀ p, (geometry p).Accepted)
    (hfresh : UInt32.ofNat (mem₀.load 4 36) ≠ kReady) (s : BytesState Party)
    (hs : (bytesSystem mem₀ creates geometry).Reachable s) (c : Party) (mem : ByteMemory) (hc : s.creator = some c)
    (hmem : s.segment = some mem) :
    (attachSystem ((geometry c).words mem₀) creates geometry).Reachable (s.inWords (geometry c)) ∧
    (∀ p, s.parties p = .attached →
      ((geometry p).rings > 0 → BlockGeometry.adopt mem = some (geometry c)) ∧
      ∀ f : BlockField, f.Within (s.goesBy p mem) →
        f.Within (geometry c) ∧ f.offset (s.goesBy p mem) = f.offset (geometry c)) ∧
    (∀ f : BlockField, f.IsSample → f.Within (geometry c) →
      f.read (geometry c) mem = f.stamped s.stamps (f.read (geometry c) mem₀)) ∧
    ∀ x, (geometry c).bytesFor.toNat ≤ x → mem x = mem₀ x := by
  have h := bytesInv_reachable hg hfresh hs c (Or.inr hc)
  refine ⟨h.reach, fun p hp => ?_, h.samples mem hmem, h.outside mem hmem⟩
  obtain ⟨hheader, hagrees, htable⟩ := h.attached hfresh hc hmem hp
  exact ⟨fun hpos => htable (hagrees.2.1 ▸ hpos), fun f hf => h.goesBy_spec hheader hf⟩

/-- A creator and a peer, with one name and one ring of two samples. -/
def twoOnBytes : Fin 2 → BlockGeometry := fun _ => ⟨1, 1, 2⟩

def twoOnBytesStart : BytesState (Fin 2) := ⟨none, fun _ => .idle, fun _ => none, none, [], []⟩

/-- The peer claims the ring and stamps a sample, then its head. -/
def twoOnBytesRun : List (BytesAction (Fin 2)) :=
  List.replicate 19 (.go 0) ++ List.replicate 8 (.go 1) ++ [.adopt 1, .use 1 (.owner 0 257), .stamp 1 (.timestamp 0 1) 900,
    .stamp 1 (.point 0 1) 7, .use 1 (.head 0 1)]

def twoOnBytesEnd : BytesState (Fin 2) :=
  ((bytesSystem (fun _ => 0) (fun _ => true) twoOnBytes).run twoOnBytesRun twoOnBytesStart).get (by decide +kernel)

theorem block_bytes_refine_twoOnBytes : ∃ s mem,
    (bytesSystem (fun _ => 0) (fun _ => true) twoOnBytes).run twoOnBytesRun twoOnBytesStart = some s ∧
      s.segment = some mem ∧ (BlockField.point 0 1).read (twoOnBytes 0) mem = 7 ∧
      (attachSystem ((twoOnBytes 0).words fun _ => 0) (fun _ => true) twoOnBytes).Reachable (s.inWords (twoOnBytes 0)) := by
  have hrun : (bytesSystem (fun _ => 0) (fun _ => true) twoOnBytes).run twoOnBytesRun twoOnBytesStart =
      some twoOnBytesEnd := (Option.some_get _).symm
  have hsome : twoOnBytesEnd.segment.isSome = true := by decide +kernel
  have hc : twoOnBytesEnd.creator = some 0 := by decide +kernel
  have hg : (⟨1, 1, 2⟩ : BlockGeometry).Accepted := ⟨by decide, by decide⟩
  have h := block_bytes_refine (fun _ => 0) (fun _ => true) twoOnBytes (fun _ => hg) (by decide) twoOnBytesEnd
    (.run (.init ⟨rfl, rfl, rfl, rfl, fun _ => rfl, fun _ => rfl⟩) hrun) 0 (twoOnBytesEnd.segment.get hsome) hc
    (Option.some_get hsome).symm
  refine ⟨_, _, hrun, (Option.some_get hsome).symm, ?_, h.1⟩
  rw [h.2.2.1 (.point 0 1) trivial (by decide)]
  decide +kernel

end SlickPerfmon
